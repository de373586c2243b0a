import Ascribe.Tree.Parts
import Ascribe.Typing.Queries

/-!
# Expectations

The type that the place of a node asks for: the annotation of a variable for its initialiser, a parameter
for an argument, the other operand for an operand. Only literals, parameters of lambdas and empty arrays take
notice of it; everything else is typed from its parts.
-/

namespace Ascribe.Typing

variable (p : Tree) (q : Queries)

/-- The result type written for the function, method or lambda around a node. -/
def enclosingResult (node : NodeId) : Infer (Option Ty) := do
  match ← Search.ofWalk (p.nearest (·.opensBody) node) with
  | none => return none
  | some owner =>
    match p.form? owner with
    | some (.funDecl f) => q.typeOf? f.result
    | some (.method m) => q.typeOf? m.result
    | some (.lambda l) => q.typeOf? l.result
    | _ => return none

/-- A parameter of the `init` method of a class without generic parameters. -/
def initParam (cls : NodeId) (position : Nat) : Infer (Option Ty) := do
  match p.form? cls with
  | some (.reference n _) =>
    match n.target with
    | none => return none
    | some target =>
      match ← Search.ofWalk (p.form target) with
      | .typeDecl d =>
        if !d.generics.isEmpty then return none
        match p.classMember? d.definition "init" false with
        | some init => return (← q.signatureOf init).params[position]?.map (·.type)
        | none => return none
      | _ => return none
  | _ => return none

/-- What a call expects of the argument at a position. -/
def argumentExpected (callee : NodeId) (position : Nat) : Infer (Option Ty) := do
  let calleeType ← q.typeOf callee
  match (← q.resolveDeep calleeType.stripNullable).shape with
  | .fn s => return if s.generics.isEmpty then s.params[position]?.map (·.type) else none
  | .constructed c => return if c.args.isEmpty then none else c.params[position]?.map (·.type)
  | _ => return none

/-- What an operator expects of one operand. -/
def operandExpected (node parent : NodeId) (op : BinaryOp) (lhs rhs : NodeId) : Infer (Option Ty) := do
  let sibling := if lhs = node then rhs else lhs
  match op with
  | .coalesce =>
    if rhs = node then return some (← q.typeOf lhs).stripNullable else return none
  | .and | .or => return none
  | _ =>
    if ← Search.ofWalk (p.isNumericLiteral sibling) then
      if op.isComparison then return none else q.expected parent
    else
      let t ← q.typeOf sibling
      return if t.isError then none else some t

/-- The type that the place of a node asks for, if any. -/
def expected (node : NodeId) : Infer (Option Ty) := do
  match p.parent? node with
  | none => return none
  | some parent =>
    match p.form? parent with
    | some (.varDecl v) => if v.init = some node then q.typeOf? v.type else return none
    | some (.structField name _) =>
      match p.parent? parent with
      | none => return none
      | some literal =>
        return (← q.expectedResolved literal).bind fun t =>
          t.structBody?.bind fun body => (body.field? name).map (·.type)
    | some (.array _) =>
      match (← q.expectedResolved parent).map Ty.shape with
      | some (.array elem) => return some elem
      | _ => return none
    | some (.tuple elems) =>
      match elems.idxOf? node with
      | none => return none
      | some position =>
        match (← q.expectedResolved parent).map Ty.shape with
        | some (.tuple types) => return types[position]?
        | _ => return none
    | some (.conditional condition _ _) => if condition ≠ node then q.expected parent else return none
    | some (.matchArm _ body) => if body = node then q.expected parent else return none
    | some (.matchExpr scrutinee _) => if scrutinee ≠ node then q.expected parent else return none
    | some (.returnStmt _) | some (.yieldExpr _) => enclosingResult p q parent
    | some (.funDecl f) => if f.body = some node then q.typeOf? f.result else return none
    | some (.method m) => if m.body = some node then q.typeOf? m.result else return none
    | some (.lambda l) =>
      if l.body ≠ node then return none
      match l.result with
      | some result => return some (← q.typeOf result)
      | none => return (← q.expectedResolved parent).bind fun t => t.signature?.map (·.result)
    | some (.call c) =>
      match c.args.idxOf? node with
      | some position => argumentExpected q c.callee position
      | none => return none
    | some (.newExpr cls args) =>
      match args.idxOf? node with
      | some position => initParam p q cls position
      | none => return none
    | some (.assignment target value) =>
      if value = node then return some (← q.typeOf target) else return none
    | some (.unary .neg _) => q.expected parent
    | some (.binary op lhs rhs) => operandExpected p q node parent op lhs rhs
    | _ => return none

end Ascribe.Typing
