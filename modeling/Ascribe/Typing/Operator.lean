import Ascribe.Typing.Branches

/-!
# Operators

A class may answer to an operator with a method of that name. Otherwise arithmetic is for numbers, `+` also
for strings, comparison for numbers and for strings, and the bitwise operators for integers. Anything can
be compared for equality. An operand of type `any` makes the result `any`.
-/

namespace Ascribe.Typing

/-- The error of an operator that does not apply to its operands. -/
def invalidOperands (op : BinaryOp) (lhs rhs : Ty) : Ty :=
  .error (.invalidOperands op.symbol lhs.text rhs.text)

/-- The type of an arithmetic, bitwise or ordering operator on resolved operands. -/
def builtInBinary (op : BinaryOp) (l r : Ty) : Option Ty :=
  let areStrings := l.isPrimitive .string && r.isPrimitive .string
  if l.isAny || r.isAny then some (if op.isComparison then .bool else .any)
  else if op.isComparison then
    if areStrings || (l.isNumeric && r.isNumeric) then some .bool else none
  else if op = .add && areStrings then some .string
  else
    match l.primitive?, r.primitive? with
    | some a, some b =>
      if op.isBitwise && !(a.isInteger && b.isInteger) then none
      else if op = .shl || op = .shr then some (.prim a)
      else (a.widen b).map .prim
    | _, _ => none

/-- Whether a unary operator applies to a resolved operand. -/
def unaryApplies (op : UnaryOp) (operand : Ty) : Bool :=
  match op with
  | .neg => operand.isNumeric
  | .not => operand.isPrimitive .bool
  | .bitNot => operand.isInteger

variable (q : Queries)

/-- The instance method of a class that answers to an operator with so many parameters. -/
def operatorMethod (t : Ty) (symbol : String) (arity : Nat) : Infer (Option (Signature Ty)) := do
  match (← q.resolveDeep t).shape with
  | .cls body =>
    return (body.methods.find? fun m =>
      !m.isStatic && m.names.contains symbol && m.signature.params.length == arity).map (·.signature)
  | _ => return none

/-- The type of a binary expression. -/
def binaryType (op : BinaryOp) (lhs rhs : NodeId) : Infer Ty := do
  let l ← q.typeOf lhs
  let r ← q.typeOf rhs
  match ([l, r].find? (·.isPlaceholder)).or ([l, r].find? (·.isError)) with
  | some failed => return failed
  | none =>
    match op with
    | .and | .or =>
      let a ← q.resolveDeep l
      let b ← q.resolveDeep r
      return if a.isPrimitive .bool && b.isPrimitive .bool then .bool else invalidOperands op l r
    | .coalesce => q.commonType [l.stripNullable, r]
    | .eq | .notEq => return .bool
    | _ =>
      match ← operatorMethod q l op.symbol 1 with
      | some method => return method.result
      | none =>
        let a ← q.resolveDeep l
        let b ← q.resolveDeep r
        return (builtInBinary op a b).getD (invalidOperands op l r)

/-- The type of a unary expression. -/
def unaryType (op : UnaryOp) (operand : NodeId) : Infer Ty := do
  let t ← q.typeOf operand
  if t.isError then return t
  match ← operatorMethod q t op.symbol 0 with
  | some method => return method.result
  | none =>
    let resolved ← q.resolveDeep t
    if resolved.isAny then return .any
    return if unaryApplies op resolved then t else .error (.invalidOperand op.symbol t.text)

end Ascribe.Typing
