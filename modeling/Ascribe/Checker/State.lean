import Ascribe.Instantiation.Registry
import Ascribe.Memo
import Ascribe.Search

/-!
# The state of a checker

A checker keeps everything it has found out about one tree: the types of finished nodes, the named types
it has resolved, and the instantiations it has come across. The tree itself is given to each query, so it
can be edited between queries.
-/

namespace Ascribe

/-- The choices a host can make. -/
structure Settings where
  /-- The kind of an integer literal that nothing else fixes. -/
  defaultInt : Primitive := .i32
  /-- The kind of a decimal literal that nothing else fixes. -/
  defaultFloat : Primitive := .f64
  /-- How many named types may be resolved inside each other. -/
  maxReferenceDepth : Nat := 64
  /-- Whether instantiations are logged. -/
  logInstantiations : Bool := true
  deriving DecidableEq, Repr, Inhabited

namespace Settings

/-- Choose the default integer kind; anything but an integer is ignored. -/
def withDefaultInt (s : Settings) (p : Primitive) : Settings :=
  if p.isInteger then { s with defaultInt := p } else s

/-- Choose the default decimal kind; anything but a float is ignored. -/
def withDefaultFloat (s : Settings) (p : Primitive) : Settings :=
  if p.isFloat then { s with defaultFloat := p } else s

/-- Choose the reference depth, at least one. -/
def withMaxReferenceDepth (s : Settings) (depth : Nat) : Settings :=
  { s with maxReferenceDepth := max depth 1 }

def withLogging (s : Settings) (enabled : Bool) : Settings :=
  { s with logInstantiations := enabled }

end Settings

/-- Identifies a named type: its declaration and the texts of its arguments. -/
abbrev ReferenceKey := NodeId × String

/-- The key under which a resolved named type is kept. -/
def Reference.key (r : Reference Ty) : ReferenceKey :=
  (r.decl, ", ".intercalate (r.args.map Ty.text))

/-- What a checker knows. -/
structure Checker where
  settings : Settings := {}
  memo : Memo := {}
  /-- Named types that have been resolved. -/
  resolved : Table ReferenceKey Ty := ∅
  /-- How many resolutions were computed. -/
  resolutions : Nat := 0
  registry : Instantiation.Registry := {}
  deriving Inhabited

/-- A query over the state of a checker. -/
abbrev Infer := Search Checker

namespace Infer

/-- The settings in force. -/
def settings : Infer Settings :=
  return (← get).settings

/-- Extend the registry; gives the key under which the extension files its entry. -/
def log (add : Instantiation.Registry → String × Instantiation.Registry) : Infer String := do
  let c ← get
  let (key, registry) := add c.registry
  set { c with registry }
  return key

/-- Log a class instantiation; gives its key. -/
def logClass (decl : NodeId) (name : String) (args : List Ty) : Infer String :=
  log (·.addClass decl name args)

/-- Log a function instantiation; gives its key. -/
def logFunction (decl : NodeId) (name : String) (args : List Ty) : Infer String :=
  log (·.addFunction decl name args)

/-- Log a method instantiation of a class instantiation; gives its key. -/
def logMethod (classKey : String) (decl : NodeId) (name : String) (args : List Ty) : Infer String :=
  log (·.addMethod classKey decl name args)

end Infer

end Ascribe
