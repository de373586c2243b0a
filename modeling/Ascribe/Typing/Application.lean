import Ascribe.Tree.Parts
import Ascribe.Ty.Solve
import Ascribe.Typing.Queries

/-!
# Application

Calls and constructions. The generic parameters of a function, a constructor or a class are the ones written
out, or else they are solved from the arguments. Each instantiation that a call performs is logged.
-/

namespace Ascribe.Typing

variable (p : Tree) (q : Queries)

/-- Log the instantiation a call performs: a function under its name, a method under the class instantiation
of the value it is called on. -/
def logCall (calleeType : Ty) (callee : NodeId) (bindings : Bindings) : Infer Unit := do
  if !(← Infer.settings).logInstantiations || bindings.isEmpty then return
  match calleeType.origin with
  | none => return
  | some decl =>
    match ← Search.ofWalk (p.form decl) with
    | .funDecl f => discard (Infer.logFunction decl f.name bindings.values)
    | .method m =>
      match p.form? callee with
      | some (.member access) =>
        let owner ← q.typeOf access.base
        match owner.stripNullable.reference? with
        | some r =>
          let classKey ← Infer.logClass r.decl r.name r.args
          discard (Infer.logMethod classKey decl (m.names.head?.getD "") bindings.values)
        | none => return
      | _ => return
    | _ => return

/-- The types a call gives to the generic parameters of a signature, unless it writes out the wrong number. -/
def callBindings (calleeType : Ty) (s : Signature Ty) (c : CallForm) (args : List Ty) :
    Infer (Except Problem Bindings) := do
  let names := s.genericNames
  if !c.generics.isEmpty then
    if c.generics.length ≠ names.length then
      return .error (.genericArity calleeType.text names.length c.generics.length)
    return .ok (Bindings.zip names (← q.typesOf c.generics))
  else if names.isEmpty then return .ok ∅
  else return .ok (solveGenerics names s.paramTypes args)

/-- The type of a call of a function. -/
def callFunction (calleeType : Ty) (s : Signature Ty) (c : CallForm) (args : List Ty) : Infer Ty := do
  match ← callBindings q calleeType s c args with
  | .error problem => return .error problem
  | .ok bindings =>
    logCall p q calleeType c.callee bindings
    return (s.instantiate bindings).result

/-- The names of the generic parameters of a declared variant. -/
def variantGenerics (decl : Option NodeId) : Infer (List String) := do
  match decl with
  | none => return []
  | some decl =>
    match ← Search.ofWalk (p.form decl) with
    | .typeDecl d => return p.genericNames d.generics
    | _ => return []

/-- A constructor applied to arguments, which fix the open generic parameters of its variant. -/
def construct (c : Constructed Ty) (args : List Ty) : Infer Ty := do
  if !c.args.isEmpty then return .of (.constructed c)
  let names ← variantGenerics p c.decl
  if names.isEmpty then return .of (.constructed c)
  let bindings := solveGenerics names (c.params.map (·.type)) args
  return .of (.constructed { c with
    variant := c.variant.substitute bindings
    args := bindings.values
    params := Shape.mapFields (·.substitute bindings) c.params })

/-- The type of a call. -/
def callType (c : CallForm) : Infer Ty := do
  let calleeType ← q.typeOf c.callee
  if calleeType.isError then return calleeType
  let direct ← q.resolveDeep calleeType
  let isOptional ← if direct.isNullable then Search.ofWalk (p.inOptionalChain c.callee) else pure false
  let callee ← if isOptional then q.resolveDeep direct.stripNullable else pure direct
  let args ← q.typesOf c.args
  let result ← match callee.shape with
    | .fn s => callFunction p q calleeType s c args
    | .coroutine s => pure s.result
    | .constructed ctor => construct p ctor args
    | .prim .any => pure .any
    | _ => pure (.error (.notCallable calleeType.text))
  return if isOptional && !result.isError then result.nullable else result

/-- The class a type names: the named type and the declaration of the class. -/
def namedClass? (t : Ty) : Infer (Option (Reference Ty × TypeDeclForm)) := do
  match t.reference? with
  | none => return none
  | some r =>
    match ← Search.ofWalk (p.form r.decl) with
    | .typeDecl d =>
      match p.form? d.definition with
      | some (.classType _) => return some (r, d)
      | _ => return none
    | _ => return none

/-- The types of the parameters of `init` in a class as it is written. -/
def initParams (cls : NodeId) : Infer (List Ty) := do
  match p.classMember? cls "init" false with
  | some init => return (← q.signatureOf init).paramTypes
  | none => return []

/-- The type of a construction. Generic arguments that are not written are solved from the arguments of
`init`. -/
def newType (cls : NodeId) (args : List NodeId) : Infer Ty := do
  let named ← q.typeOf cls
  if named.isError then return named
  match ← namedClass? p named with
  | none => return .error (.notInstantiable named.text)
  | some (r, d) =>
    let names := p.genericNames d.generics
    let classArgs ←
      if r.args.isEmpty && !names.isEmpty then do
        let params ← initParams p q d.definition
        let args ← q.typesOf args
        pure (solveGenerics names params args).values
      else pure r.args
    if (← Infer.settings).logInstantiations then
      discard (Infer.logClass r.decl d.name classArgs)
    return .reference r.decl d.name classArgs

end Ascribe.Typing
