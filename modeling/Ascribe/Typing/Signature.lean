import Ascribe.Typing.Branches

/-!
# Signatures

The signatures of functions, methods and lambdas. A result that is not written is found from the body: the
common type of what it returns (or yields, for a coroutine), the body itself if it is an expression, and `void`
if it returns nothing. A body that only comes back to itself never returns.
-/

namespace Ascribe.Typing

/-- What the result of a body is known to be once its own recursion is left aside. -/
def settle (t : Ty) : Ty :=
  if t.isPlaceholder then .never else t

variable (p : Tree) (q : Queries)

/-- The generic parameters in a list of nodes. -/
def generics (nodes : List NodeId) : Infer (List (Generic Ty)) :=
  nodes.filterMapM fun node =>
    match p.form? node with
    | some (.genericParam name constraint) => return some { name, constraint := ← q.typeOf? constraint }
    | _ => return none

/-- The parameters in a list of nodes. -/
def params (nodes : List NodeId) : Infer (List (Param Ty)) :=
  nodes.filterMapM fun node =>
    match p.form? node with
    | some (.param f) => return some { name := f.name, type := ← q.typeOf node, isMut := f.isMut }
    | _ => return none

/-- The values that leave a body: those it yields for a coroutine, those it returns otherwise. -/
def bodyValues (kind : FnKind) (body : NodeId) : Infer (List (Option NodeId)) := do
  let nodes ← Search.ofWalk (p.collect (Form.leaves kind) body)
  return nodes.map fun node => (p.form? node).bind Form.leavingValue?

/-- Whether a form is a block of statements. -/
def isBlock : Form → Bool
  | .block _ => true
  | _ => false

/-- The type of what leaves a body. -/
def bodyType (kind : FnKind) (body : NodeId) : Infer Ty := do
  if kind = .plain && !(isBlock (← Search.ofWalk (p.form body))) then
    return settle (← q.typeOf body)
  let values ← bodyValues p kind body
  if values.isEmpty then return .void
  return settle (← q.commonType (← values.mapM q.typeOrVoid))

/-- The result of a function, written or found from its body. -/
def resultType (result body : Option NodeId) (kind : FnKind) : Infer Ty :=
  match result, body with
  | some result, _ => q.typeOf result
  | none, some body => bodyType p q kind body
  | none, none => return .void

/-- The type of a function from its parts. -/
def functionType (genericNodes paramNodes : List NodeId) (result body : Option NodeId)
    (kind : FnKind) : Infer Ty := do
  let generics ← generics p q genericNodes
  let params ← params p q paramNodes
  let result ← resultType p q result body kind
  return .function { params, result, generics, kind }

/-- A parameter without a type takes the one its lambda's place asks for. -/
def paramType (node : NodeId) (f : ParamForm) : Infer Ty := do
  match f.type with
  | some type => q.typeOf type
  | none =>
    let missing := Ty.error (.untypedParameter f.name)
    match p.parent? node with
    | none => return missing
    | some parent =>
      match p.form? parent with
      | some (.lambda l) =>
        match ← q.expected parent with
        | none => return missing
        | some t =>
          let resolved ← q.resolveDeep t
          let param := do
            let s ← resolved.signature?
            s.params[← l.params.idxOf? node]?
          return (param.map (·.type)).getD missing
      | _ => return missing

/-- The type of a variable: the one written for it, else the one of its initialiser. -/
def variableType (v : VariableForm) : Infer Ty := do
  match v.type, v.init with
  | some type, _ => q.typeOf type
  | none, none => return .error (.nothingKnown v.name)
  | none, some init =>
    let t ← q.typeOf init
    return if t.isNull then .error (.onlyNullKnown v.name) else t

end Ascribe.Typing
