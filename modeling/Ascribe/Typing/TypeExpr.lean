import Ascribe.Literal.Integer
import Ascribe.Tree.Parts
import Ascribe.Ty.Canonical
import Ascribe.Ty.Enum
import Ascribe.Typing.Signature

/-!
# Types as written

The types that type expressions denote, and the types of the declarations inside them: constructors of
variants and cases of enumerations.
-/

namespace Ascribe.Typing

variable (p : Tree) (q : Queries)

/-- The fields in a list of nodes; nodes of another form are passed over. -/
def fields (nodes : List NodeId) : Infer (List (Field Ty)) :=
  nodes.filterMapM fun node =>
    match p.form? node with
    | some (.field name _) => return some { name, type := ← q.typeOf node, origin := some node }
    | _ => return none

/-- The attributes in a list of nodes. -/
def attributes (nodes : List NodeId) : Infer (List (Attribute Ty)) :=
  nodes.filterMapM fun node =>
    match p.form? node with
    | some (.attribute a) =>
      return some {
        name := a.name, type := ← q.typeOf node, isStatic := a.isStatic, isConst := a.isConst,
        isLocal := a.isLocal, origin := some node }
    | _ => return none

/-- The methods of a class in a list of nodes; a method without a name is passed over. -/
def classMethods (nodes : List NodeId) : Infer (List (Method Ty)) :=
  nodes.filterMapM fun node =>
    match p.form? node with
    | some (.method m) =>
      match MethodNames.ofList? m.names with
      | some names =>
        return some {
          names, signature := ← q.signatureOf node, isStatic := m.isStatic, origin := some node }
      | none => return none
    | _ => return none

/-- The methods of an interface in a list of nodes; a method without a name is passed over. -/
def interfaceMethods (nodes : List NodeId) : Infer (List (Method Ty)) :=
  nodes.filterMapM fun node =>
    match p.form? node with
    | some (.interfaceMethod m) =>
      match MethodNames.ofList? m.names with
      | some names => return some { names, signature := ← q.signatureOf node, origin := some node }
      | none => return none
    | _ => return none

/-- The type a class denotes. -/
def classType (c : ClassForm) : Infer Ty := do
  let attributes ← attributes p q c.attributes
  let methods ← classMethods p q c.methods
  let supers ← q.typesOf c.supers
  let impls ← q.typesOf c.impls
  return .of (.cls { attributes, methods, supers, impls })

/-- The type an interface denotes. -/
def interfaceType (methods supers : List NodeId) : Infer Ty := do
  let methods ← interfaceMethods p q methods
  let supers ← q.typesOf supers
  return .of (.interface { methods, supers })

/-- The type a variant denotes. -/
def variantType (constructors : List NodeId) : Infer Ty := do
  let cases ← constructors.filterMapM fun node =>
    match p.form? node with
    | some (.ctorDecl name params) =>
      return some { name, params := ← fields p q params, origin := some node }
    | _ => return none
  return .of (.variant cases)

/-- The cases in a list of nodes, unless a value is not a 64-bit integer. -/
def enumCases : List NodeId → Except Problem (List EnumCase)
  | [] => return []
  | node :: rest =>
    match p.form? node with
    | some (.enumCase name value) => do
      let value ← value.mapM enumValue
      return { name, value, origin := some node } :: (← enumCases rest)
    | _ => enumCases rest
where
  /-- The value of a case. -/
  enumValue (text : String) : Except Problem Int := do
    let literal ← Literal.readInteger text
    if Primitive.i64.fits literal.value then return literal.value
    else throw (.literalOutOfRange text Primitive.i64.name)

/-- The type an enumeration denotes. -/
def enumType (cases : List NodeId) (repr : Option Primitive) : Ty :=
  match enumCases p cases with
  | .ok cases => .enum cases repr
  | .error problem => .error problem

/-- The type a coroutine type denotes: it is built from a function that can be run as one. -/
def coroutineType (function : NodeId) : Infer Ty := do
  let t ← q.typeOf function
  match t.shape with
  | .fn s =>
    return if s.kind = .coroutine then .coroutine s else .error (.notCoroutineFunction t.text)
  | .error _ => return t
  | _ => return .error (.notCoroutineFunction t.text)

/-- A constructor seen from its declaration, with the generic parameters of its variant open. -/
def constructorType (node : NodeId) (name : String) (params : List NodeId) : Infer Ty := do
  match p.parent? node with
  | none => return .error .incompleteNode
  | some parent =>
    let variant ← q.typeOf parent
    let decl := (p.parent? parent).filter fun d => (p.typeDecl? d).isSome
    let variantName := ((decl.bind p.typeDecl?).map (·.name)).getD "variant"
    let params ← fields p q params
    return .of (.constructed { decl, variantName, variant, name, params })

/-- The type of a case of an enumeration is the enumeration. -/
def enumCaseType (node : NodeId) : Infer Ty :=
  match p.parent? node with
  | some parent => q.typeOf parent
  | none => return .error .incompleteNode

end Ascribe.Typing
