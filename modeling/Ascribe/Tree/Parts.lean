import Ascribe.Tree.Basic

/-!
# Parts of a tree

What can be read off a tree without typing anything: the names of generic parameters, the members a class is
written with, whether an access chain may end in null.
-/

namespace Ascribe.Tree

/-- The names of the generic parameters in a list of nodes; nodes of another form are passed over. -/
def genericNames (t : Tree) (nodes : List NodeId) : List String :=
  nodes.filterMap fun id =>
    match t.form? id with
    | some (.genericParam name _) => some name
    | _ => none

/-- Whether a form is an attribute of the given name and staticness. -/
def isAttributeNamed (name : String) (isStatic : Bool) : Option Form → Bool
  | some (.attribute a) => a.name == name && a.isStatic == isStatic
  | _ => false

/-- Whether a form is a method of the given name and staticness. -/
def isMethodNamed (name : String) (isStatic : Bool) : Option Form → Bool
  | some (.method m) => m.isStatic == isStatic && m.names.contains name
  | _ => false

/-- The attribute, or else the method, that a class is written with under a name. -/
def classMember? (t : Tree) (cls : NodeId) (name : String) (isStatic : Bool) : Option NodeId :=
  match t.form? cls with
  | some (.classType c) =>
    (c.attributes.find? fun id => isAttributeNamed name isStatic (t.form? id)).or
      (c.methods.find? fun id => isMethodNamed name isStatic (t.form? id))
  | _ => none

/-- The declaration of a named type at a node. -/
def typeDecl? (t : Tree) (id : NodeId) : Option TypeDeclForm :=
  match t.form? id with
  | some (.typeDecl d) => some d
  | _ => none

/-- Whether a node is a numeric literal, perhaps under minus signs, looking at most so deep. -/
def isNumericLiteralWithin (t : Tree) : Nat → NodeId → Except Fault Bool
  | 0, _ => throw .tooDeep
  | depth + 1, id =>
    match t.form? id with
    | some (.int _) | some (.float _) => return true
    | some (.unary .neg operand) => t.isNumericLiteralWithin depth operand
    | _ => return false

/-- Whether a node is a numeric literal, perhaps under minus signs. -/
def isNumericLiteral (t : Tree) (id : NodeId) : Except Fault Bool :=
  t.isNumericLiteralWithin (t.size + 1) id

/-- Whether a node stands directly under a minus sign. -/
def isNegated (t : Tree) (id : NodeId) : Bool :=
  match (t.parent? id).bind t.form? with
  | some (.unary .neg _) => true
  | _ => false

/-- Whether an access chain has an optional access, looking at most so many accesses down. -/
def inOptionalChainWithin (t : Tree) : Nat → NodeId → Except Fault Bool
  | 0, _ => throw .tooDeep
  | depth + 1, id =>
    match t.form? id with
    | some (.member m) => if m.optional then return true else t.inOptionalChainWithin depth m.base
    | some (.index i) => if i.optional then return true else t.inOptionalChainWithin depth i.base
    | some (.call c) => t.inOptionalChainWithin depth c.callee
    | _ => return false

/-- Whether a node is at or above an optional access in the same access chain. -/
def inOptionalChain (t : Tree) (id : NodeId) : Except Fault Bool :=
  t.inOptionalChainWithin (t.size + 1) id

end Ascribe.Tree
