import Ascribe.Tree.Basic

/-!
# Builders

A builder makes a tree node by node. Each node that is not given a span gets one of its own, one offset
wide, so that nodes can be told apart by their spans even without source text.
-/

namespace Ascribe

/-- A tree under construction, its top-level items and the next free offset. -/
structure Builder where
  tree : Tree := {}
  items : List NodeId := []
  offset : Nat := 0
  deriving Inhabited

namespace Builder

/-- The next span of one offset. -/
def nextSpan (b : Builder) : Span × Builder :=
  (⟨b.offset, b.offset + 1, 0⟩, { b with offset := b.offset + 1 })

/-- Add a node with a given span. -/
def nodeAt (b : Builder) (form : Form) (span : Span) : Except Fault (NodeId × Builder) := do
  let (id, tree) ← b.tree.alloc form span
  return (id, { b with tree })

/-- Add a node with a span of its own. -/
def node (b : Builder) (form : Form) : Except Fault (NodeId × Builder) :=
  let (span, b) := b.nextSpan
  b.nodeAt form span

/-- Add a node to be filled later. -/
def reserve (b : Builder) : NodeId × Builder :=
  let (id, tree) := b.tree.reserve
  (id, { b with tree })

/-- Fill a node with a span of its own. -/
def fill (b : Builder) (id : NodeId) (form : Form) : Except Fault Builder := do
  let (span, b) := b.nextSpan
  let tree ← b.tree.fill id form span
  return { b with tree }

/-- Add nodes one after another. -/
def nodes (b : Builder) : List Form → Except Fault (List NodeId × Builder)
  | [] => return ([], b)
  | form :: rest => do
    let (id, b) ← b.node form
    let (ids, b) ← b.nodes rest
    return (id :: ids, b)

/-- Add a match with one arm for each body. -/
def matchExpr (b : Builder) (scrutinee : NodeId) (bodies : List NodeId) :
    Except Fault (NodeId × Builder) := do
  let (arms, b) ← b.nodes (bodies.map (.matchArm none))
  b.node (.matchExpr scrutinee arms)

/-- Add a struct literal with one field for each pair of a name and a value. -/
def structLiteral (b : Builder) (fields : List (String × NodeId)) :
    Except Fault (NodeId × Builder) := do
  let (ids, b) ← b.nodes (fields.map fun (name, value) => .structField name value)
  b.node (.struct ids)

/-- Register a top-level item. -/
def item (b : Builder) (id : NodeId) : Builder :=
  { b with items := b.items ++ [id] }

/-- Put the items under a root and hand the tree over. -/
def finish (b : Builder) : Except Fault Tree := do
  let (root, b) ← b.node (.compilationUnit b.items)
  return b.tree.setRoot root

end Builder

end Ascribe
