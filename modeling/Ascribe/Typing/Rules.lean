import Ascribe.Typing.Access
import Ascribe.Typing.Application
import Ascribe.Typing.Expectation
import Ascribe.Typing.Literal
import Ascribe.Typing.Resolution
import Ascribe.Typing.TypeExpr

/-!
# The rules

`Typing.ruleFor` is the rule of each form. `Typing.typeOf` applies it through the memo: a finished type is
handed out, an open node is observed, and any other node is opened, typed and finished. A type that points at no
node yet is made to point at the node it was found for.
-/

namespace Ascribe.Typing

variable (p : Tree) (q : Queries)

/-- The type of a cast; a safe one may fail and give null. -/
def castType (expr target : NodeId) (kind : CastKind) : Infer Ty := do
  let source ← q.typeOf expr
  if source.isPlaceholder then return source
  let t ← q.typeOf target
  return if kind = .safe then t.nullable else t

/-- The type of a coroutine built from a function. -/
def coroutineOf (function : NodeId) : Infer Ty := do
  let t ← q.typeOf function
  if t.isError then return t
  match (← q.resolveDeep t).shape with
  | .fn s =>
    return if s.kind = .coroutine then .coroutine s else .error (.notCoroutineFunction t.text)
  | _ => return .error (.notCoroutineFunction t.text)

/-- The type of a node of a given form. -/
def ruleFor (node : NodeId) (form : Form) : Infer Ty :=
  match form with
  | .pending => return .error .incompleteNode
  | .compilationUnit _ => return .void
  | .funDecl f => functionType p q f.generics f.params f.result f.body f.kind
  | .param f => paramType p q node f
  | .varDecl v => variableType q v
  | .typeDecl d => q.typeOf d.definition
  | .genericParam name constraint =>
    return .of (.generic { name, constraint := ← q.typeOf? constraint })
  | .attribute a => q.typeOf a.type
  | .method m => functionType p q m.generics m.params m.result m.body m.kind
  | .interfaceMethod m => functionType p q m.generics m.params m.result none .plain
  | .field _ type => q.typeOf type
  | .ctorDecl name params => constructorType p q node name params
  | .enumCase .. => enumCaseType p q node
  | .primitive prim => return .prim prim
  | .arrayType elem => return .array (← q.typeOf elem)
  | .nullableType base => return .nullable (← q.typeOf base)
  | .unionType members => return (Ty.union (← q.typesOf members)).simplify
  | .joinType members => return (Ty.join (← q.typesOf members)).simplify
  | .tupleType elems => return .tuple (← q.typesOf elems)
  | .structType nodes => return .struct (← fields p q nodes) false
  | .classType c => classType p q c
  | .interfaceType methods supers => interfaceType p q methods supers
  | .variantType constructors => variantType p q constructors
  | .enumType cases repr => return enumType p cases repr
  | .stringEnumType cases => return .of (.stringEnum cases)
  | .functionType params result kind => functionType p q [] params result none kind
  | .coroutineType function => coroutineType q function
  | .reference n args => referenceType p q n args
  | .int text => intType p q node text
  | .float text => floatType q node text
  | .bool _ => return .bool
  | .string _ => return .string
  | .null => return .null
  | .name n => nameType p q n
  | .this => thisType p q node
  | .binary op lhs rhs => binaryType q op lhs rhs
  | .unary op operand => unaryType q op operand
  | .call c => callType p q c
  | .member m => memberType p q m
  | .index i => indexType p q i
  | .conditional _ thenBranch elseBranch => do
    q.commonType (← q.typesOf [thenBranch, elseBranch])
  | .matchExpr _ arms => do
    if arms.isEmpty then return .void
    q.commonType (← q.typesOf arms)
  | .matchArm _ body => q.typeOf body
  | .array elems => arrayType q node elems
  | .struct fields => structType p q fields
  | .structField _ value => q.typeOf value
  | .tuple elems => return .tuple (← q.typesOf elems)
  | .newExpr cls args => newType p q cls args
  | .lambda l => functionType p q l.generics l.params l.result (some l.body) l.kind
  | .cast expr target kind => castType q expr target kind
  | .instanceCheck .. => return .bool
  | .coroutine function => coroutineOf q function
  | .yieldExpr _ => return .void
  | .denull expr => return (← q.typeOf expr).stripNullable
  | .assignment target _ => q.typeOf target
  | .block _ | .exprStmt _ | .returnStmt _ | .ifStmt .. | .whileStmt .. | .forStmt .. => return .void
  | .breakStmt | .continueStmt => return .never

/-- The type of a node, through the memo. -/
def typeOf (node : NodeId) : Infer Ty := do
  let c ← get
  match c.memo.get? node with
  | some (.done t) => return t
  | some .inProgress =>
    set { c with memo := c.memo.observe node }
    return .placeholder
  | none =>
    let form ← Search.ofWalk (p.form node)
    set { c with memo := c.memo.start node }
    let t ← ruleFor p q node form
    let t := t.orOrigin node
    modify fun c => { c with memo := c.memo.finish node t }
    return t

end Ascribe.Typing
