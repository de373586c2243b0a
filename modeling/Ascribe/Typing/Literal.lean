import Ascribe.Literal.Decimal
import Ascribe.Literal.Integer
import Ascribe.Tree.Parts
import Ascribe.Typing.Branches

/-!
# Literals

A numeric literal takes the kind of its suffix, else the number type its place asks for if the value fits,
else the default of the settings. Arrays take the common type of their elements, and structs have the fields
they are written with.
-/

namespace Ascribe.Typing

variable (p : Tree) (q : Queries)

/-- The number type that the place of a node asks for. -/
def expectedNumber (node : NodeId) : Infer (Option Primitive) := do
  return (← q.expectedResolved node).bind fun t => t.primitive?.filter (·.isNumeric)

/-- The type of an integer literal. -/
def intType (node : NodeId) (text : String) : Infer Ty := do
  match Literal.readInteger text with
  | .error problem => return .error problem
  | .ok literal =>
    match literal.suffix with
    | some kind => return .prim kind
    | none =>
      let value := if p.isNegated node then Literal.negate128 literal.value else literal.value
      let fallback := Primitive.defaultInteger value (← Infer.settings).defaultInt
      match ← expectedNumber q node with
      | some kind => return .prim (if kind.isFloat || kind.fits value then kind else fallback)
      | none => return .prim fallback

/-- The type of a decimal literal. -/
def floatType (node : NodeId) (text : String) : Infer Ty := do
  match Literal.readDecimal text with
  | .error problem => return .error problem
  | .ok (some kind) => return .prim kind
  | .ok none =>
    let fallback := (← Infer.settings).defaultFloat
    return .prim (((← expectedNumber q node).filter (·.isFloat)).getD fallback)

/-- The type of an array literal; an empty one takes the element its place asks for. -/
def arrayType (node : NodeId) (elems : List NodeId) : Infer Ty := do
  if elems.isEmpty then
    match (← q.expectedResolved node).map Ty.shape with
    | some (.array elem) => return .array elem
    | _ => return .array .never
  else
    let elem ← q.commonType (← q.typesOf elems)
    return if elem.isError then elem else .array elem

/-- The fields of a struct literal. The first one that is still open further out stands for them all. -/
def literalFields : List NodeId → Infer (Except Ty (List (Field Ty)))
  | [] => return .ok []
  | node :: rest =>
    match p.form? node with
    | some (.structField name _) => do
      let type ← q.typeOf node
      if type.isPlaceholder then return .error type
      return (← literalFields rest).map ({ name, type, origin := some node } :: ·)
    | _ => literalFields rest

/-- The type of a struct literal. -/
def structType (fields : List NodeId) : Infer Ty := do
  match ← literalFields p q fields with
  | .ok fields => return .struct fields true
  | .error openType => return openType

end Ascribe.Typing
