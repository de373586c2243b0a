import Ascribe.NodeMap
import Ascribe.Ty.Basic

/-!
# The memo of node types

Each node is absent, open or finished. The open nodes form a stack of frames, the innermost first. A query
that comes back to an open node *observes* it: every frame opened after that node now depends on a result
that is not known yet, and is tainted. A tainted result is handed to whoever asked and not kept, so it is
computed again once the outer node is finished. The observed node itself is kept as usual.

A *mark* asks the same question for a computation that is memoised elsewhere: whether anything since the
mark observed a node that was already open when the mark was taken.
-/

namespace Ascribe

/-- What the memo holds for a node. -/
inductive MemoEntry where
  | inProgress
  | done (type : Ty)

/-- An open node, and whether its result depends on an older open node. -/
structure Frame where
  node : NodeId
  isTainted : Bool := false
  deriving DecidableEq, Repr

/-- The state of the memo. -/
structure Memo where
  entries : NodeMap MemoEntry := ∅
  /-- The open nodes, innermost first. -/
  frames : List Frame := []
  /-- How many nodes are finished. -/
  finished : Nat := 0
  /-- The lowest position in the stack observed since the last mark, counted from the outermost. -/
  lowest : Option Nat := none
  deriving Inhabited

/-- A point in time: how many nodes were open, and what had been observed before. -/
structure Mark where
  depth : Nat
  saved : Option Nat

namespace Memo

def get? (m : Memo) (node : NodeId) : Option MemoEntry :=
  m.entries.get? node

/-- The lower of two optional positions. -/
def lower : Option Nat → Option Nat → Option Nat
  | some a, some b => some (min a b)
  | a, b => a.or b

/-- Open a node. -/
def start (m : Memo) (node : NodeId) : Memo :=
  { m with
    entries := m.entries.insert node .inProgress
    frames := ⟨node, false⟩ :: m.frames }

/-- Observe an open node: taint the frames opened after it. -/
def observe (m : Memo) (node : NodeId) : Memo :=
  match m.frames.findIdx? (·.node == node) with
  | some newer =>
    { m with
      frames := (m.frames.take newer).map ({ · with isTainted := true }) ++ m.frames.drop newer
      lowest := lower m.lowest (some (m.frames.length - 1 - newer)) }
  | none => m

/-- Close the innermost node with its type, which is kept unless the frame is tainted. -/
def finish (m : Memo) (node : NodeId) (type : Ty) : Memo :=
  let (isTainted, frames) := match m.frames with
    | frame :: rest => (frame.isTainted, rest)
    | [] => (false, [])
  if isTainted then { m with entries := m.entries.erase node, frames }
  else { m with
    entries := m.entries.insert node (.done type)
    frames
    finished := m.finished + 1 }

/-- Drop the type of a finished node; an open one is left alone. -/
def remove (m : Memo) (node : NodeId) : Memo :=
  match m.get? node with
  | some (.done _) => { m with entries := m.entries.erase node, finished := m.finished - 1 }
  | _ => m

/-- Take a mark. -/
def mark (m : Memo) : Mark × Memo :=
  (⟨m.frames.length, m.lowest⟩, { m with lowest := none })

/-- Whether anything since the mark observed a node that was open before it. -/
def observedOutside (m : Memo) (mark : Mark) : Bool × Memo :=
  (m.lowest.any (· < mark.depth), { m with lowest := lower m.lowest mark.saved })

end Memo

end Ascribe
