import Ascribe.Instantiation.Key
import Ascribe.Ty.Generics

/-!
# The registry of instantiations

A log of every concrete instantiation of a generic class, method or function. Each entry sits under its
key, in order of first registration; registering it again changes nothing. An instantiation without
arguments, or with an argument that still mentions a generic parameter, is given a key but not stored.
-/

namespace Ascribe.Instantiation

/-- A generic declaration at concrete arguments. -/
structure Entry where
  key : String
  decl : NodeId
  name : String
  args : List Ty
  /-- The key of the class instantiation that a method belongs to; classes and functions have none. -/
  classKey : Option String := none

/-- The instantiations found so far. -/
structure Registry where
  classes : Table String Entry := ∅
  /-- Methods, listed under the key of the class they belong to. -/
  methods : Table String (Table String Entry) := ∅
  functions : Table String Entry := ∅
  deriving Inhabited

/-- Whether arguments call for an instantiation: there are some, and none has a free parameter. -/
def isConcrete (args : List Ty) : Bool :=
  !args.isEmpty && args.all fun t => !t.hasGenerics

/-- Store an entry under its key, if its arguments are concrete and the key is new. -/
def store (entries : Table String Entry) (entry : Entry) : Table String Entry :=
  if isConcrete entry.args && !entries.contains entry.key then entries.insert entry.key entry
  else entries

namespace Registry

/-- Log a class at some arguments; gives its key. -/
def addClass (r : Registry) (decl : NodeId) (name : String) (args : List Ty) : String × Registry :=
  let key := keyOf name args
  (key, { r with classes := store r.classes { key, decl, name, args } })

/-- Log a function at some arguments; gives its key. -/
def addFunction (r : Registry) (decl : NodeId) (name : String) (args : List Ty) :
    String × Registry :=
  let key := keyOf name args
  (key, { r with functions := store r.functions { key, decl, name, args } })

/-- Log a method of a class instantiation at some arguments; gives its key. -/
def addMethod (r : Registry) (classKey : String) (decl : NodeId) (name : String) (args : List Ty) :
    String × Registry :=
  let key := classKey ++ "::" ++ keyOf name args
  if isConcrete args then
    let known := (r.methods.get? classKey).getD ∅
    let entry := { key, decl, name, args, classKey := some classKey }
    (key, { r with methods := r.methods.insert classKey (store known entry) })
  else (key, r)

/-- The methods logged under a class key. -/
def methodsOf (r : Registry) (classKey : String) : List Entry :=
  ((r.methods.get? classKey).getD ∅).values

/-- The class logged under a key. -/
def class? (r : Registry) (key : String) : Option Entry :=
  r.classes.get? key

def isEmpty (r : Registry) : Bool :=
  r.classes.isEmpty && r.methods.isEmpty && r.functions.isEmpty

/-- Forget every instantiation. -/
def clear (_ : Registry) : Registry :=
  {}

end Registry

end Ascribe.Instantiation
