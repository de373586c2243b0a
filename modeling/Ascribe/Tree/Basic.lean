import Ascribe.Source
import Ascribe.Tree.Form

/-!
# Trees

A tree is an arena of nodes. Allocating or filling a node makes it the parent of its children, so a node
that is given to two parents belongs to the last one. Identity is the position in the arena: filling a
node again keeps its position and its parent.

Walks over a tree can fail in two ways, and `Fault` names both. A position outside the arena has no node.
A walk that takes more steps than its bound has come back to where it was, and would never end.
-/

namespace Ascribe

/-- Why a walk or a query gives no answer. -/
inductive Fault where
  /-- There is no node at this position. -/
  | missingNode (id : NodeId)
  /-- The walk goes deeper than its bound. -/
  | tooDeep
  deriving DecidableEq, Repr

/-- A node: its form, where it stands in the source, and the node that owns it. -/
structure Node where
  form : Form
  span : Span := {}
  parent : Option NodeId := none
  deriving Inhabited

/-- An arena of nodes with an optional root. -/
structure Tree where
  nodes : Array Node := #[]
  root : Option NodeId := none
  deriving Inhabited

namespace Tree

def size (t : Tree) : Nat :=
  t.nodes.size

def node? (t : Tree) (id : NodeId) : Option Node :=
  t.nodes[id]?

def form? (t : Tree) (id : NodeId) : Option Form :=
  (t.node? id).map (·.form)

def parent? (t : Tree) (id : NodeId) : Option NodeId :=
  (t.node? id).bind (·.parent)

/-- The node at a position that must exist. -/
def node (t : Tree) (id : NodeId) : Except Fault Node :=
  match t.node? id with
  | some n => .ok n
  | none => .error (.missingNode id)

/-- The form at a position that must exist. -/
def form (t : Tree) (id : NodeId) : Except Fault Form :=
  (·.form) <$> t.node id

/-- The children of a node; none when there is no such node. -/
def children (t : Tree) (id : NodeId) : List NodeId :=
  match t.form? id with
  | some form => form.children
  | none => []

/-- Make `parent` the owner of one node. -/
def adopt (parent : NodeId) (t : Tree) (child : NodeId) : Except Fault Tree :=
  match t.nodes[child]? with
  | some n => .ok { t with nodes := t.nodes.setIfInBounds child { n with parent := some parent } }
  | none => .error (.missingNode child)

/-- Add a node at the next position and make it the parent of its children. -/
def alloc (t : Tree) (form : Form) (span : Span) : Except Fault (NodeId × Tree) := do
  let id := t.size
  let grown := { t with nodes := t.nodes.push { form, span } }
  let linked ← form.children.foldlM (adopt id) grown
  return (id, linked)

/-- Add a node to be filled later, so that nodes made before it is filled can point at it. -/
def reserve (t : Tree) : NodeId × Tree :=
  (t.size, { t with nodes := t.nodes.push { form := .pending } })

/-- Replace the form and the span of a node, and make it the parent of its new children. -/
def fill (t : Tree) (id : NodeId) (form : Form) (span : Span) : Except Fault Tree := do
  let n ← t.node id
  let filled := { t with nodes := t.nodes.setIfInBounds id { n with form, span } }
  form.children.foldlM (adopt id) filled

def setRoot (t : Tree) (root : NodeId) : Tree :=
  { t with root := some root }

/-- The ancestors of a node along at most `steps` parents, innermost first. -/
def ancestorsWithin (t : Tree) : Nat → NodeId → Except Fault (List NodeId)
  | 0, id => do
    match (← t.node id).parent with
    | none => return []
    | some _ => throw .tooDeep
  | steps + 1, id => do
    match (← t.node id).parent with
    | none => return []
    | some up => return up :: (← t.ancestorsWithin steps up)

/-- The strict ancestors of a node, innermost first. -/
def ancestors (t : Tree) (id : NodeId) : Except Fault (List NodeId) :=
  t.ancestorsWithin t.size id

/-- The innermost ancestor whose form satisfies `wanted`, along at most `steps` parents. -/
def nearestWithin (t : Tree) (wanted : Form → Bool) : Nat → NodeId → Except Fault (Option NodeId)
  | 0, id => do
    match (← t.node id).parent with
    | none => return none
    | some _ => throw .tooDeep
  | steps + 1, id => do
    match (← t.node id).parent with
    | none => return none
    | some up =>
      if wanted (← t.form up) then return some up
      else t.nearestWithin wanted steps up

/-- The innermost strict ancestor whose form satisfies `wanted`. -/
def nearest (t : Tree) (wanted : Form → Bool) (id : NodeId) : Except Fault (Option NodeId) :=
  t.nearestWithin wanted t.size id

/-- How many children the nodes of a tree have together. -/
def links (t : Tree) : Nat :=
  (t.nodes.toList.flatMap (·.form.children)).length

/-- How many nodes a walk down that ends can visit at most: it goes down along at most `size` nodes, and from each of
them on to at most `links` others. -/
def visitLimit (t : Tree) : Nat :=
  Nat.pow (t.links + 1) t.size

/-- Visit the nodes on a stack, at most `steps` of them. The node on top is listed if its form is `wanted`, and if it is
to be entered its children take its place, the first one on top. -/
def visit (t : Tree) (wanted : Form → Bool) (enter : NodeId → Form → Bool) :
    Nat → List NodeId → Array NodeId → Except Fault (Array NodeId)
  | _, [], found => return found
  | 0, _ :: _, _ => throw .tooDeep
  | steps + 1, id :: stack, found => do
    let form ← t.form id
    let found := if wanted form then found.push id else found
    let stack := if enter id form then form.children ++ stack else stack
    t.visit wanted enter steps stack found

/-- A node followed by every node below it, in preorder. -/
def descendants (t : Tree) (id : NodeId) : Except Fault (List NodeId) :=
  (·.toList) <$> t.visit (fun _ => true) (fun _ _ => true) t.visitLimit [id] #[]

/-- Whether a walk over a body goes on below a node: at the body itself, and at every node that opens no body of its
own. -/
def goesOn (body id : NodeId) (form : Form) : Bool :=
  id == body || !form.opensBody

/-- The nodes of a body whose form is `wanted`, in preorder. What is nested in the body but belongs to a function,
method or lambda in it is left out. -/
def collect (t : Tree) (wanted : Form → Bool) (body : NodeId) : Except Fault (List NodeId) :=
  (·.toList) <$> t.visit wanted (goesOn body) t.visitLimit [body] #[]

end Tree

end Ascribe
