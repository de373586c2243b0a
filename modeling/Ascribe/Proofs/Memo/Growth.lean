import Ascribe.Memo

/-!
# How the memo grows

While a question is answered the memo only grows (`Memo.Grows`): finished types stay as they are, open nodes
stay open and no other node is left open, and the stack holds the same nodes afterwards. A frame may become
tainted on the way, but never the outermost one, since there is no older open node to observe.

## Key results

- `Memo.Grows.observe`, `Memo.Grows.mark`, `Memo.Grows.observedOutside`: the single operations
- `Memo.Grows.finish`: opening a node, answering questions and finishing the node
- `Memo.get?_finish`: a node that is opened while no other one is open is kept
-/

namespace Ascribe.Memo

/-! ## What an operation does to the entries -/

theorem get?_start (m : Memo) (node other : NodeId) :
    (m.start node).get? other = if other = node then some .inProgress else m.get? other :=
  NodeMap.get?_insert m.entries node other .inProgress

@[simp] theorem get?_observe (m : Memo) (node other : NodeId) : (m.observe node).get? other = m.get? other := by
  unfold observe
  split <;> rfl

/-- `finish` keeps a node as `done` or forgets it, and leaves every other entry alone. -/
theorem get?_finish_cases (m : Memo) (node : NodeId) (type : Ty) :
    ∃ slot : Option MemoEntry, (slot = none ∨ slot = some (.done type)) ∧
      ∀ other, (m.finish node type).get? other = if other = node then slot else m.get? other := by
  have hkept (frames : List Frame) (finished : Nat) (other : NodeId) :
      Memo.get? { m with entries := m.entries.insert node (.done type), frames, finished } other =
        if other = node then some (.done type) else m.get? other :=
    NodeMap.get?_insert m.entries node other (.done type)
  cases hframes : m.frames with
  | nil =>
    refine ⟨some (.done type), .inr rfl, fun other => ?_⟩
    simp only [finish, hframes]
    exact hkept [] _ other
  | cons frame rest =>
    cases htaint : frame.isTainted with
    | false =>
      refine ⟨some (.done type), .inr rfl, fun other => ?_⟩
      simp only [finish, hframes, htaint]
      exact hkept rest _ other
    | true =>
      refine ⟨none, .inl rfl, fun other => ?_⟩
      simp only [finish, hframes, htaint]
      exact NodeMap.get?_erase m.entries node other

/-- `remove` clears an entry or leaves it alone. -/
theorem get?_removeAll_cases (m : Memo) (nodes : List NodeId) (other : NodeId) :
    (nodes.foldl remove m).get? other = none ∨ (nodes.foldl remove m).get? other = m.get? other := by
  have hone (m : Memo) (node : NodeId) :
      (m.remove node).get? other = none ∨ (m.remove node).get? other = m.get? other := by
    unfold remove
    split
    · show (m.entries.erase node).get? other = none ∨ (m.entries.erase node).get? other = m.get? other
      rw [NodeMap.get?_erase]
      split
      · exact .inl rfl
      · exact .inr rfl
    · exact .inr rfl
  induction nodes generalizing m with
  | nil => exact .inr rfl
  | cons node rest ih =>
    rcases ih (m.remove node) with hnone | hsame
    · exact .inl hnone
    · rcases hone m node with hnone | hsame'
      · exact .inl (hsame.trans hnone)
      · exact .inr (hsame.trans hsame')

/-! ## Growth -/

/-- The oldest open node, if any, depends on no other open node. -/
def OutermostClean (m : Memo) : Prop :=
  ∀ frame, m.frames.getLast? = some frame → frame.isTainted = false

/-- What answering a question may do to the memo. -/
structure Grows (m m' : Memo) : Prop where
  nodes : m'.frames.map Frame.node = m.frames.map Frame.node
  outermost : m.OutermostClean → m'.OutermostClean
  done : ∀ {node t}, m.get? node = some (.done t) → m'.get? node = some (.done t)
  inProgress : ∀ {node}, m'.get? node = some .inProgress ↔ m.get? node = some .inProgress
  finished : m.finished ≤ m'.finished

namespace Grows

theorem refl (m : Memo) : m.Grows m :=
  ⟨rfl, id, id, Iff.rfl, Nat.le_refl _⟩

theorem trans {m m' m'' : Memo} (h : m.Grows m') (h' : m'.Grows m'') : m.Grows m'' where
  nodes := h'.nodes.trans h.nodes
  outermost := fun hclean => h'.outermost (h.outermost hclean)
  done := fun hdone => h'.done (h.done hdone)
  inProgress := h'.inProgress.trans h.inProgress
  finished := Nat.le_trans h.finished h'.finished

/-- Changing `lowest` alone is `Grows`. -/
theorem ofLowest (m : Memo) (lowest : Option Nat) : m.Grows { m with lowest } :=
  ⟨rfl, id, id, Iff.rfl, Nat.le_refl _⟩

theorem mark (m : Memo) : m.Grows m.mark.2 :=
  ofLowest m none

theorem observedOutside (m : Memo) (mark : Mark) : m.Grows (m.observedOutside mark).2 :=
  ofLowest m _

/-- `observe` is `Grows`: it taints frames opened after the observed one, so not the outermost. -/
theorem observe (m : Memo) (node : NodeId) : m.Grows (m.observe node) := by
  unfold Memo.observe
  split
  · next newer hnewer =>
    have hlt : newer < m.frames.length := (List.findIdx?_eq_some_iff_getElem.mp hnewer).1
    refine ⟨?_, ?_, id, Iff.rfl, Nat.le_refl _⟩
    · -- tainting frames changes none of their nodes
      have htaint : (Frame.node ∘ fun frame : Frame => { frame with isTainted := true }) = Frame.node := rfl
      rw [List.map_append, List.map_map, htaint, ← List.map_append, List.take_append_drop]
    · -- the outermost frame is the observed one or an older one
      intro hclean frame hframe
      have hsome : (m.frames.drop newer).getLast?.isSome := by simpa [List.getLast?_isSome] using hlt
      rw [List.getLast?_append, Option.or_of_isSome hsome, List.getLast?_drop,
        if_neg (Nat.not_le.mpr hlt)] at hframe
      exact hclean frame hframe
  · exact refl m

/-- After `start node` and what `Grows` from there, the innermost frame is the one of `node`. -/
theorem frames_start {m m' : Memo} {node : NodeId} (h : (m.start node).Grows m') :
    ∃ frame rest, m'.frames = frame :: rest ∧ rest.map Frame.node = m.frames.map Frame.node := by
  have hnodes := h.nodes
  simp only [start, List.map_cons] at hnodes
  cases hframes : m'.frames with
  | nil => simp [hframes] at hnodes
  | cons frame rest =>
    simp only [hframes, List.map_cons, List.cons.injEq] at hnodes
    exact ⟨frame, rest, rfl, hnodes.2⟩

end Grows

theorem OutermostClean.start {m : Memo} (h : m.OutermostClean) (node : NodeId) :
    (m.start node).OutermostClean := by
  intro frame hframe
  simp only [Memo.start, List.getLast?_cons, Option.some.injEq] at hframe
  subst hframe
  cases hlast : m.frames.getLast? with
  | none => rfl
  | some oldest => exact h oldest hlast

/-- A memo without open nodes is `OutermostClean`. -/
theorem OutermostClean.ofIdle {m : Memo} (h : m.frames = []) : m.OutermostClean := by
  intro frame hframe
  simp [h] at hframe

namespace Grows

/-- `Grows` holds from before `start node` to after its frame is closed, if `node` gets a `slot` that is not
`inProgress`. -/
private theorem close {m m' : Memo} {node : NodeId} (habsent : m.get? node = none)
    (h : (m.start node).Grows m') {frame : Frame} {rest : List Frame} (hframes : m'.frames = frame :: rest)
    (hrest : rest.map Frame.node = m.frames.map Frame.node) (slot : Option MemoEntry)
    (hslot : slot ≠ some .inProgress) {finished : Nat} (hfinished : m'.finished ≤ finished) :
    m.Grows { m' with entries := m'.entries.set node slot, frames := rest, finished } := by
  have hget (other : NodeId) :
      Memo.get? { m' with entries := m'.entries.set node slot, frames := rest, finished } other =
        if other = node then slot else m'.get? other :=
    NodeMap.get?_set m'.entries node other slot
  have hstart {other : NodeId} (hne : other ≠ node) : (m.start node).get? other = m.get? other := by
    rw [get?_start, if_neg hne]
  refine ⟨hrest, fun hclean last hlast => ?_, fun {other t} hdone => ?_, fun {other} => ?_,
    Nat.le_trans h.finished hfinished⟩
  · refine h.outermost (hclean.start node) last ?_
    rw [hframes, List.getLast?_cons, hlast]
    rfl
  · -- a type that was finished before is not the one of the node, which was absent
    have hne : other ≠ node := by
      rintro rfl
      rw [habsent] at hdone
      exact nomatch hdone
    rw [hget, if_neg hne]
    exact h.done (by rw [hstart hne, hdone])
  · rw [hget]
    split
    · next heq =>
      subst heq
      simp [habsent, hslot]
    · next hne => rw [h.inProgress, hstart hne]

/-- `Grows` holds from before `start node` to after `finish node`, if `node` was absent. -/
theorem finish {m m' : Memo} {node : NodeId} (habsent : m.get? node = none)
    (h : (m.start node).Grows m') (type : Ty) : m.Grows (m'.finish node type) := by
  obtain ⟨frame, rest, hframes, hrest⟩ := h.frames_start
  unfold Memo.finish
  simp only [hframes]
  split
  · exact close habsent h hframes hrest none nofun (Nat.le_refl _)
  · exact close habsent h hframes hrest (some (.done type)) nofun (Nat.le_succ _)

end Grows

/-- `finish` keeps the type of a node that was opened by `start` while no other one was open. -/
theorem get?_finish {m m' : Memo} {node : NodeId} (hidle : m.frames = [])
    (h : (m.start node).Grows m') (type : Ty) :
    (m'.finish node type).get? node = some (.done type) := by
  obtain ⟨frame, rest, hframes, hrest⟩ := h.frames_start
  have hempty : rest = [] := by simpa [hidle] using hrest
  have hclean : frame.isTainted = false :=
    h.outermost ((OutermostClean.ofIdle hidle).start node) frame (by simp [hframes, hempty])
  simp [Memo.finish, hframes, hclean, Memo.get?]

end Ascribe.Memo
