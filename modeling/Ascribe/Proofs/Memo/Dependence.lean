import Mathlib.Data.List.Chain
import Ascribe.Proofs.Memo.Consistency
import Ascribe.Proofs.Memo.Trace

/-!
# What an answer depends on

A search that comes back to an open node is handed a placeholder, and whatever is found from there on depends on it. The
memo notes this in two books: the frames opened after the node are tainted, and the lowest position observed reaches
below them. This module says what can be read off the two books while a question is answered, if a search comes back to
some nodes only, its *anchors*.

A tainted frame then stands on another one, or on the frame of an anchor (`Memo.Layered`). So an answer that is handed
to the innermost frame can depend on a placeholder only if that frame is tainted or belongs to an anchor, and an open
position has been observed (`Memo.Stirred`). Once this is the case it stays so until the frame is closed (`Memo.Moves`).

## Key results

- `Memo.Moves.stirred`: what may depend on a placeholder does so from then on
- `Memo.Moves.finish`: opening a node, answering questions and finishing the node
- `Memo.Stirred.finish_of_tainted`: a result that is thrown away may depend on a placeholder
-/

namespace Ascribe

/-- A frame that may depend on a placeholder: it is tainted, or a search may come back to its node. -/
def Frame.isLoose (anchor : NodeId → Bool) (frame : Frame) : Bool :=
  frame.isTainted || anchor frame.node

namespace Memo

variable {anchor : NodeId → Bool} {m m' m'' : Memo} {node : NodeId}

/-- `observe` of an open node splits `frames` at its frame and taints those further in. -/
theorem observe_of_mem (hopen : node ∈ m.frames.map Frame.node) :
    ∃ inner frame outer, m.frames = inner ++ frame :: outer ∧ frame.node = node ∧
      m.observe node =
        { m with
          frames := inner.map ({ · with isTainted := true }) ++ frame :: outer
          lowest := lower m.lowest (some outer.length) } := by
  obtain ⟨frame, hframe, hnode⟩ := List.mem_map.mp hopen
  have hsome : (m.frames.find? (·.node == node)).isSome = true :=
    List.find?_isSome.mpr ⟨frame, hframe, by simpa using hnode⟩
  obtain ⟨found, hfound⟩ := Option.isSome_iff_exists.mp hsome
  obtain ⟨hnode, inner, outer, hframes, hinner⟩ := List.find?_eq_some_iff_append.mp hfound
  have hmiss : ∀ frame ∈ inner, frame.node ≠ node := fun frame hframe => by simpa using hinner frame hframe
  have hnode : found.node = node := by simpa using hnode
  exact ⟨inner, found, outer, hframes, hnode, observe_of_frames hframes hmiss hnode⟩

/-- `finish` closes the innermost frame, and keeps the type unless the frame `isTainted`. -/
theorem finish_of_frames {frame : Frame} {rest : List Frame} (hframes : m.frames = frame :: rest) (node : NodeId)
    (t : Ty) :
    (m.finish node t).frames = rest ∧ (m.finish node t).lowest = m.lowest ∧
      ∀ other, (m.finish node t).get? other =
        if other = node then (if frame.isTainted then none else some (.done t)) else m.get? other := by
  unfold finish
  simp only [hframes]
  split
  · exact ⟨rfl, rfl, NodeMap.get?_erase m.entries node⟩
  · exact ⟨rfl, rfl, fun other => NodeMap.get?_insert m.entries node other (.done t)⟩

/-! ## Moves -/

/-- Frames before and after some observations, the lowest of which is at a given position. They are those of the same
nodes, a tainted one stays tainted, and the position is below one that has become tainted. -/
inductive Taints (lowest : Option Nat) : List Frame → List Frame → Prop where
  | nil : Taints lowest [] []
  | cons {frame frame' : Frame} {rest rest' : List Frame} (node : frame'.node = frame.node)
    (keeps : frame.isTainted = true → frame'.isTainted = true)
    (since : frame'.isTainted = true → frame.isTainted = true ∨ lowest.any (· < rest.length) = true)
    (outer : Taints lowest rest rest') : Taints lowest (frame :: rest) (frame' :: rest')

namespace Taints

variable {lowest lowest' : Option Nat} {frames frames' frames'' : List Frame}

theorem refl (lowest : Option Nat) (frames : List Frame) : Taints lowest frames frames := by
  induction frames with
  | nil => exact .nil
  | cons frame rest ih => exact .cons rfl id .inl ih

theorem nodes (h : Taints lowest frames frames') : frames'.map Frame.node = frames.map Frame.node := by
  induction h with
  | nil => rfl
  | cons node _ _ _ ih => rw [List.map_cons, List.map_cons, node, ih]

theorem length (h : Taints lowest frames frames') : frames'.length = frames.length := by
  simpa using congrArg List.length h.nodes

/-- `Taints` composes if `lowest'` is no higher than `lowest`. -/
theorem trans (h : Taints lowest frames frames') (h' : Taints lowest' frames' frames'')
    (hlowest : ∀ depth : Nat, lowest.any (· < depth) = true → lowest'.any (· < depth) = true) :
    Taints lowest' frames frames'' := by
  induction h generalizing frames'' with
  | nil => exact h'
  | cons node keeps since outer ih =>
    cases h' with
    | cons node' keeps' since' outer' =>
      refine .cons (node'.trans node) (fun h => keeps' (keeps h)) (fun htaint => ?_) (ih outer')
      rcases since' htaint with htaint | hreaches
      · exact (since htaint).imp_right (hlowest _)
      · rw [outer.length] at hreaches
        exact .inr hreaches

/-- If the innermost frame `isLoose`, then it still is after `Taints`. -/
theorem loose (h : Taints lowest frames frames') (hloose : frames.head?.any (Frame.isLoose anchor) = true) :
    frames'.head?.any (Frame.isLoose anchor) = true := by
  cases h with
  | nil => exact hloose
  | cons node keeps since outer =>
    simp only [List.head?_cons, Option.any_some, Frame.isLoose, Bool.or_eq_true] at hloose ⊢
    rw [node]
    exact hloose.imp_left keeps

/-- `Taints` holds when the frames further in than an observed one become tainted. -/
theorem observe (inner : List Frame) (frame : Frame) (outer : List Frame) :
    Taints (lower lowest (some outer.length)) (inner ++ frame :: outer)
      (inner.map ({ · with isTainted := true }) ++ frame :: outer) := by
  induction inner with
  | nil => exact refl _ _
  | cons first inner ih =>
    refine .cons rfl (fun _ => rfl) (fun _ => .inr ?_) ih
    rw [any_lower, Option.any_some, Bool.or_eq_true, decide_eq_true_iff]
    right
    show outer.length < (inner ++ frame :: outer).length
    rw [List.length_append, List.length_cons]
    omega

end Taints

/-- What answering a question may do to the two books: frames become tainted by observing older ones, and the lowest
position observed becomes lower. -/
structure Moves (m m' : Memo) : Prop where
  frames : Taints m'.lowest m.frames m'.frames
  lowest : ∀ depth : Nat, m.lowest.any (· < depth) = true → m'.lowest.any (· < depth) = true

namespace Moves

theorem refl (m : Memo) : m.Moves m :=
  ⟨.refl _ _, fun _ => id⟩

theorem trans (h : m.Moves m') (h' : m'.Moves m'') : m.Moves m'' :=
  ⟨h.frames.trans h'.frames h'.lowest, fun depth hreaches => h'.lowest depth (h.lowest depth hreaches)⟩

theorem observe (hopen : node ∈ m.frames.map Frame.node) : m.Moves (m.observe node) := by
  obtain ⟨inner, frame, outer, hframes, -, hobserve⟩ := observe_of_mem hopen
  rw [hobserve]
  constructor
  · dsimp only
    rw [hframes]
    exact .observe inner frame outer
  · intro depth hreaches
    dsimp only
    rw [any_lower, hreaches, Bool.true_or]

/-- What `Moves` a memo between `mark` and `observedOutside` moves it as a whole. -/
theorem sinceMark (h : m.mark.2.Moves m') : m.Moves (m'.observedOutside m.mark.1).2 := by
  constructor
  · refine h.frames.trans (.refl _ _) fun depth hreaches => ?_
    show (lower m'.lowest m.lowest).any (· < depth) = true
    rw [any_lower, hreaches, Bool.true_or]
  · intro depth hreaches
    show (lower m'.lowest m.lowest).any (· < depth) = true
    rw [any_lower, hreaches, Bool.or_true]

/-- After `start node` and further `Moves`, the innermost frame is the one of `node`. If it is tainted, then `lowest`
names an older open node. -/
theorem frames_start (h : (m.start node).Moves m') :
    ∃ frame rest, m'.frames = frame :: rest ∧ frame.node = node ∧
      (frame.isTainted = true → m'.lowest.any (· < m.frames.length) = true) ∧ Taints m'.lowest m.frames rest := by
  have hframes : Taints m'.lowest (⟨node, false⟩ :: m.frames) m'.frames := h.frames
  cases hafter : m'.frames with
  | nil =>
    rw [hafter] at hframes
    cases hframes
  | cons frame rest =>
    rw [hafter] at hframes
    cases hframes with
    | cons hnode _ hsince houter =>
      refine ⟨frame, rest, rfl, hnode, fun htaint => ?_, houter⟩
      exact (hsince htaint).resolve_left Bool.false_ne_true

/-- `start`, further `Moves` and `finish` together are `Moves`. -/
theorem finish (h : (m.start node).Moves m') (t : Ty) : m.Moves (m'.finish node t) := by
  obtain ⟨frame, rest, hframes, -, -, houter⟩ := h.frames_start
  obtain ⟨hrest, hlowest, -⟩ := finish_of_frames hframes node t
  constructor
  · rw [hrest, hlowest]
    exact houter
  · intro depth hreaches
    rw [hlowest]
    exact h.lowest depth hreaches

end Moves

/-! ## Frames that stand on each other -/

/-- A tainted frame stands on one that is tainted too, or on the frame of an anchor. -/
def Layered (anchor : NodeId → Bool) (m : Memo) : Prop :=
  m.frames.IsChain fun newer older => newer.isTainted = true → older.isLoose anchor = true

namespace Layered

theorem start (h : m.Layered anchor) (node : NodeId) : (m.start node).Layered anchor := by
  apply List.isChain_cons.mpr
  refine ⟨fun older _ htaint => ?_, h⟩
  cases htaint

/-- `observe` of an anchor keeps a memo `Layered`. -/
theorem observe (h : m.Layered anchor) (hopen : node ∈ m.frames.map Frame.node) (hanchor : anchor node = true) :
    (m.observe node).Layered anchor := by
  obtain ⟨inner, frame, outer, hframes, hnode, hobserve⟩ := observe_of_mem hopen
  have hchain : (inner ++ frame :: outer).IsChain
      fun newer older : Frame => newer.isTainted = true → older.isLoose anchor = true := hframes ▸ h
  rw [hobserve]
  unfold Layered
  dsimp only
  clear hframes hobserve
  induction inner with
  | nil => exact hchain
  | cons first inner ih =>
    obtain ⟨-, hrest⟩ := List.isChain_cons.mp hchain
    refine List.isChain_cons.mpr ⟨fun older holder _ => ?_, ih hrest⟩
    -- the next frame is tainted now, or it is the one of the anchor
    cases inner with
    | nil =>
      obtain rfl : frame = older := by simpa using holder
      simp [Frame.isLoose, hnode, hanchor]
    | cons second inner =>
      obtain rfl : { second with isTainted := true } = older := by simpa using holder
      rfl

theorem finish (h : m.Layered anchor) {frame : Frame} {rest : List Frame} (hframes : m.frames = frame :: rest)
    (node : NodeId) (t : Ty) : (m.finish node t).Layered anchor := by
  obtain ⟨hrest, -, -⟩ := finish_of_frames hframes node t
  unfold Layered at h ⊢
  rw [hframes] at h
  rw [hrest]
  exact (List.isChain_cons.mp h).2

end Layered

/-! ## Answers that may depend on a placeholder -/

/-- What is handed to the innermost frame may depend on a placeholder: the frame is tainted or the one of an anchor, and
an open node has been observed. -/
def Stirred (anchor : NodeId → Bool) (m : Memo) : Prop :=
  m.frames.head?.any (Frame.isLoose anchor) = true ∧ m.lowest.any (· < m.frames.length) = true

/-- A memo that is `Stirred` stays so under `Moves`. -/
theorem Moves.stirred (h : m.Moves m') (hstirred : m.Stirred anchor) : m'.Stirred anchor := by
  refine ⟨h.frames.loose hstirred.1, ?_⟩
  rw [h.frames.length]
  exact h.lowest _ hstirred.2

namespace Stirred

theorem observe (hopen : node ∈ m.frames.map Frame.node) (hanchor : anchor node = true) :
    (m.observe node).Stirred anchor := by
  obtain ⟨inner, frame, outer, hframes, hnode, hobserve⟩ := observe_of_mem hopen
  rw [hobserve]
  constructor
  · cases inner with
    | nil => simp [Frame.isLoose, hnode, hanchor]
    | cons first inner => rfl
  · dsimp only
    rw [any_lower, Option.any_some, Bool.or_eq_true, decide_eq_true_iff, List.length_append, List.length_cons]
    omega

/-- If the frame that `finish` closes is tainted, then the memo is `Stirred` for the frame outside of it. -/
theorem finish_of_tainted (h : (m.start node).Moves m') (hlayered : m'.Layered anchor) {frame : Frame}
    {rest : List Frame} (hframes : m'.frames = frame :: rest) (htaint : frame.isTainted = true) (t : Ty) :
    (m'.finish node t).Stirred anchor := by
  obtain ⟨innermost, outer, hstart, -, hsince, houter⟩ := h.frames_start
  obtain ⟨rfl, rfl⟩ := List.cons.inj (hframes.symm.trans hstart)
  obtain ⟨hrest, hlowest, -⟩ := finish_of_frames hframes node t
  have hreaches := hsince htaint
  constructor
  · -- the position observed is one of an older frame, so there is one, and the tainted frame stands on it
    rw [hrest]
    cases rest with
    | nil =>
      rw [← houter.length] at hreaches
      simp at hreaches
    | cons next rest =>
      unfold Layered at hlayered
      rw [hframes] at hlayered
      exact (List.isChain_cons.mp hlayered).1 next rfl htaint
  · rw [hlowest, hrest, houter.length]
    exact hreaches

/-- The innermost frame of a `Stirred` memo `isLoose`: it is tainted or the one of an anchor. -/
theorem isLoose (h : m.Stirred anchor) {frame : Frame} {rest : List Frame} (hframes : m.frames = frame :: rest) :
    frame.isLoose anchor = true := by
  simpa [hframes] using h.1

end Stirred

end Memo

end Ascribe
