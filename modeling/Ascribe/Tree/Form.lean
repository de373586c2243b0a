import Ascribe.Primitive
import Ascribe.Tree.Operator

/-!
# Forms

The form of a tree node: what it is and which nodes it is made of. Nodes are named by their position
in the arena of their tree. A form distinguishes its *children*, which it owns, from the *target* of a
name, which it only points at: `Form.children` lists the former in source order.
-/

namespace Ascribe

/-- The position of a node in its tree. -/
abbrev NodeId := Nat

/-- A function with a name: `fn name<T>(params) -> result = body`. -/
structure FunctionForm where
  name : String
  generics : List NodeId := []
  params : List NodeId := []
  result : Option NodeId := none
  /-- An expression or a block. -/
  body : Option NodeId := none
  kind : FnKind := .plain

/-- A parameter of a function, method or lambda. -/
structure ParamForm where
  name : String
  type : Option NodeId := none
  isMut : Bool := false

/-- A variable: `let name: type = init`. -/
structure VariableForm where
  name : String
  kind : VarKind := .mutable
  type : Option NodeId := none
  init : Option NodeId := none

/-- A named type: `type Name<T, U> = definition`. -/
structure TypeDeclForm where
  name : String
  generics : List NodeId := []
  definition : NodeId

/-- An attribute of a class. -/
structure AttributeForm where
  name : String
  type : NodeId
  isStatic : Bool := false
  isConst : Bool := false
  isLocal : Bool := false

/-- A method of a class. -/
structure MethodForm where
  /-- The first name is the primary one. -/
  names : List String
  generics : List NodeId := []
  params : List NodeId := []
  result : Option NodeId := none
  body : Option NodeId := none
  isStatic : Bool := false
  kind : FnKind := .plain

/-- A method an interface asks for. -/
structure InterfaceMethodForm where
  names : List String
  generics : List NodeId := []
  params : List NodeId := []
  result : Option NodeId := none

/-- A class type: `class Supers { attributes; methods; impls }`. -/
structure ClassForm where
  attributes : List NodeId := []
  methods : List NodeId := []
  supers : List NodeId := []
  impls : List NodeId := []

/-- A use of a name, with the declaration it was bound to. -/
structure NameForm where
  name : String
  target : Option NodeId := none

/-- A call: `callee<generics>(args)`. -/
structure CallForm where
  callee : NodeId
  /-- Generic arguments written out; empty when they are to be inferred. -/
  generics : List NodeId := []
  args : List NodeId := []

/-- An access to a member: `base.name` or `base?.name`. -/
structure MemberForm where
  base : NodeId
  name : String
  optional : Bool := false

/-- An access by index: `base[index]` or `base?.[index]`. -/
structure IndexForm where
  base : NodeId
  index : NodeId
  optional : Bool := false

/-- A function without a name: `fn<T>(params) -> result = body`. -/
structure LambdaForm where
  generics : List NodeId := []
  params : List NodeId := []
  result : Option NodeId := none
  body : NodeId
  kind : FnKind := .plain

/-- What a node is, and the nodes it is made of. -/
inductive Form where
  /-- Reserved, to be filled later. -/
  | pending
  -- declarations
  | compilationUnit (items : List NodeId)
  | funDecl (f : FunctionForm)
  | param (p : ParamForm)
  | varDecl (v : VariableForm)
  | typeDecl (d : TypeDeclForm)
  | genericParam (name : String) (constraint : Option NodeId)
  | attribute (a : AttributeForm)
  | method (m : MethodForm)
  | interfaceMethod (m : InterfaceMethodForm)
  | field (name : String) (type : NodeId)
  | ctorDecl (name : String) (params : List NodeId)
  | enumCase (name : String) (value : Option String)
  -- types as written
  | primitive (p : Primitive)
  | arrayType (elem : NodeId)
  | nullableType (base : NodeId)
  | unionType (members : List NodeId)
  | joinType (members : List NodeId)
  | tupleType (elems : List NodeId)
  | structType (fields : List NodeId)
  | classType (c : ClassForm)
  | interfaceType (methods supers : List NodeId)
  | variantType (constructors : List NodeId)
  | enumType (cases : List NodeId) (repr : Option Primitive)
  | stringEnumType (cases : List String)
  | functionType (params : List NodeId) (result : Option NodeId) (kind : FnKind)
  | coroutineType (function : NodeId)
  | reference (n : NameForm) (args : List NodeId)
  -- expressions
  | int (text : String)
  | float (text : String)
  | bool (value : Bool)
  | string (value : String)
  | null
  | name (n : NameForm)
  | this
  | binary (op : BinaryOp) (lhs rhs : NodeId)
  | unary (op : UnaryOp) (operand : NodeId)
  | call (c : CallForm)
  | member (m : MemberForm)
  | index (i : IndexForm)
  | conditional (condition thenBranch elseBranch : NodeId)
  | matchExpr (scrutinee : NodeId) (arms : List NodeId)
  | matchArm (guard : Option NodeId) (body : NodeId)
  | array (elems : List NodeId)
  | struct (fields : List NodeId)
  | structField (name : String) (value : NodeId)
  | tuple (elems : List NodeId)
  | newExpr (cls : NodeId) (args : List NodeId)
  | lambda (l : LambdaForm)
  | cast (expr target : NodeId) (kind : CastKind)
  | instanceCheck (expr target : NodeId)
  | coroutine (function : NodeId)
  | yieldExpr (value : Option NodeId)
  | denull (expr : NodeId)
  | assignment (target value : NodeId)
  -- statements
  | block (stmts : List NodeId)
  | exprStmt (expr : NodeId)
  | returnStmt (value : Option NodeId)
  | ifStmt (condition thenBlock : NodeId) (elseBlock : Option NodeId)
  | whileStmt (condition body : NodeId)
  | forStmt (init condition step : Option NodeId) (body : NodeId)
  | breakStmt
  | continueStmt
  deriving Inhabited

namespace Form

/-- The nodes a node owns, in source order. The target of a name is not among them. -/
def children : Form → List NodeId
  | .compilationUnit items => items
  | .funDecl f => f.generics ++ f.params ++ f.result.toList ++ f.body.toList
  | .param p => p.type.toList
  | .varDecl v => v.type.toList ++ v.init.toList
  | .typeDecl d => d.generics ++ [d.definition]
  | .genericParam _ constraint => constraint.toList
  | .attribute a => [a.type]
  | .method m => m.generics ++ m.params ++ m.result.toList ++ m.body.toList
  | .interfaceMethod m => m.generics ++ m.params ++ m.result.toList
  | .field _ type => [type]
  | .ctorDecl _ params => params
  | .arrayType elem => [elem]
  | .nullableType base => [base]
  | .unionType members => members
  | .joinType members => members
  | .tupleType elems => elems
  | .structType fields => fields
  | .classType c => c.supers ++ c.attributes ++ c.methods ++ c.impls
  | .interfaceType methods supers => supers ++ methods
  | .variantType constructors => constructors
  | .enumType cases _ => cases
  | .functionType params result _ => params ++ result.toList
  | .coroutineType function => [function]
  | .reference _ args => args
  | .binary _ lhs rhs => [lhs, rhs]
  | .unary _ operand => [operand]
  | .call c => c.callee :: (c.generics ++ c.args)
  | .member m => [m.base]
  | .index i => [i.base, i.index]
  | .conditional condition thenBranch elseBranch => [condition, thenBranch, elseBranch]
  | .matchExpr scrutinee arms => scrutinee :: arms
  | .matchArm guard body => guard.toList ++ [body]
  | .array elems => elems
  | .struct fields => fields
  | .structField _ value => [value]
  | .tuple elems => elems
  | .newExpr cls args => cls :: args
  | .lambda l => l.generics ++ l.params ++ l.result.toList ++ [l.body]
  | .cast expr target _ => [expr, target]
  | .instanceCheck expr target => [expr, target]
  | .coroutine function => [function]
  | .yieldExpr value => value.toList
  | .denull expr => [expr]
  | .assignment target value => [target, value]
  | .block stmts => stmts
  | .exprStmt expr => [expr]
  | .returnStmt value => value.toList
  | .ifStmt condition thenBlock elseBlock => condition :: thenBlock :: elseBlock.toList
  | .whileStmt condition body => [condition, body]
  | .forStmt init condition step body =>
    init.toList ++ condition.toList ++ step.toList ++ [body]
  | .pending | .primitive _ | .stringEnumType _ | .enumCase .. | .int _ | .float _ | .bool _
  | .string _ | .null | .name _ | .this | .breakStmt | .continueStmt => []

/-- A short name of the form for a reader. -/
def description : Form → String
  | .pending => "pending"
  | .compilationUnit _ => "module"
  | .funDecl _ => "function declaration"
  | .param _ => "parameter"
  | .varDecl _ => "variable declaration"
  | .typeDecl _ => "type declaration"
  | .genericParam .. => "generic parameter"
  | .attribute _ => "class attribute"
  | .method _ => "class method"
  | .interfaceMethod _ => "interface method"
  | .field .. => "struct field"
  | .ctorDecl .. => "variant constructor"
  | .enumCase .. => "enum case"
  | .primitive _ => "primitive type"
  | .arrayType _ => "array type"
  | .nullableType _ => "nullable type"
  | .unionType _ => "union type"
  | .joinType _ => "join type"
  | .tupleType _ => "tuple type"
  | .structType _ => "struct type"
  | .classType _ => "class type"
  | .interfaceType .. => "interface type"
  | .variantType _ => "variant type"
  | .enumType .. => "enum type"
  | .stringEnumType _ => "string enum type"
  | .functionType .. => "function type"
  | .coroutineType _ => "coroutine type"
  | .reference .. => "reference type"
  | .int _ => "integer literal"
  | .float _ => "float literal"
  | .bool _ => "bool literal"
  | .string _ => "string literal"
  | .null => "null literal"
  | .name _ => "identifier"
  | .this => "this"
  | .binary .. => "binary expression"
  | .unary .. => "unary expression"
  | .call _ => "call"
  | .member _ => "member access"
  | .index _ => "index access"
  | .conditional .. => "conditional"
  | .matchExpr .. => "match"
  | .matchArm .. => "match arm"
  | .array _ => "array literal"
  | .struct _ => "struct literal"
  | .structField .. => "struct literal field"
  | .tuple _ => "tuple literal"
  | .newExpr .. => "new expression"
  | .lambda _ => "lambda"
  | .cast .. => "cast"
  | .instanceCheck .. => "instance check"
  | .coroutine _ => "coroutine expression"
  | .yieldExpr _ => "yield"
  | .denull _ => "denull"
  | .assignment .. => "assignment"
  | .block _ => "block"
  | .exprStmt _ => "expression statement"
  | .returnStmt _ => "return"
  | .ifStmt .. => "if"
  | .whileStmt .. => "while"
  | .forStmt .. => "for"
  | .breakStmt => "break"
  | .continueStmt => "continue"

/-- Whether the form opens a function body of its own, so that a `return` below it is not one of an
enclosing body. -/
def opensBody : Form → Bool
  | .funDecl _ | .method _ | .lambda _ => true
  | _ => false

/-- Whether a value leaves a function of a kind by a form: by a `yield` for a coroutine, by a `return` otherwise. -/
def leaves : FnKind → Form → Bool
  | .coroutine, .yieldExpr _ | .plain, .returnStmt _ => true
  | _, _ => false

/-- The value that is returned or yielded. -/
def leavingValue? : Form → Option NodeId
  | .yieldExpr value | .returnStmt value => value
  | _ => none

end Form

end Ascribe
