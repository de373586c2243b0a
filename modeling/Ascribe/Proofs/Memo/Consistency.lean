import Mathlib.Data.Finset.Card
import Ascribe.Proofs.Memo.Growth

/-!
# The three books of the memo agree

The memo keeps its entries, its stack of open nodes and its counter of finished nodes side by side. They agree
(`Memo.Consistent`): no node is on the stack twice, the open entries are those on the stack, and the counter is
the number of finished entries. Every operation keeps this, if nodes are opened only when they are absent and
finished only when they are innermost.

## Key results

- `Memo.Consistent.start`, `Memo.Consistent.observe`, `Memo.Consistent.finish`, `Memo.Consistent.mark`,
  `Memo.Consistent.observedOutside`, `Memo.Consistent.remove`: what each operation keeps
- `Memo.Consistent.removeAll`: dropping the types of any nodes in a row
-/

namespace Ascribe.Memo

/-- The entries, the stack and the counter of a memo agree. -/
structure Consistent (m : Memo) : Prop where
  distinct : (m.frames.map Frame.node).Nodup
  inProgress : ∀ node, m.get? node = some .inProgress ↔ node ∈ m.frames.map Frame.node
  /-- The counter is the number of nodes with a finished type. -/
  finished : ∃ nodes : Finset NodeId,
    (∀ node, node ∈ nodes ↔ ∃ t, m.get? node = some (.done t)) ∧ nodes.card = m.finished

namespace Consistent

theorem empty : Consistent {} where
  distinct := .nil
  inProgress node := by simp [Memo.get?]
  finished := ⟨∅, fun node => by simp [Memo.get?], rfl⟩

variable {m m' : Memo} {node : NodeId}

/-- `Consistent` depends only on the nodes of `frames`, the entries and `finished`. -/
theorem of_same (h : m.Consistent) (hnodes : m'.frames.map Frame.node = m.frames.map Frame.node)
    (hget : ∀ node, m'.get? node = m.get? node) (hfinished : m'.finished = m.finished) : m'.Consistent := by
  refine ⟨?_, fun node => ?_, ?_⟩
  · rw [hnodes]
    exact h.distinct
  · rw [hget, hnodes]
    exact h.inProgress node
  · simp only [hget, hfinished]
    exact h.finished

theorem observe (h : m.Consistent) (node : NodeId) : (m.observe node).Consistent := by
  have hfinished : (m.observe node).finished = m.finished := by
    unfold Memo.observe
    split <;> rfl
  exact h.of_same (Grows.observe m node).nodes (get?_observe m node) hfinished

theorem mark (h : m.Consistent) : m.mark.2.Consistent :=
  h.of_same rfl (fun _ => rfl) rfl

theorem observedOutside (h : m.Consistent) (mark : Mark) : (m.observedOutside mark).2.Consistent :=
  h.of_same rfl (fun _ => rfl) rfl

theorem start (h : m.Consistent) (habsent : m.get? node = none) : (m.start node).Consistent := by
  have hnew : node ∉ m.frames.map Frame.node := by
    rw [← h.inProgress, habsent]
    exact nofun
  refine ⟨List.nodup_cons.mpr ⟨hnew, h.distinct⟩, fun other => ?_, ?_⟩
  · show _ ↔ other ∈ node :: m.frames.map Frame.node
    rw [get?_start, List.mem_cons]
    by_cases hother : other = node
    · simp [hother]
    · simp only [hother, if_false, false_or]
      exact h.inProgress other
  · -- the node was not finished before and is not finished now
    obtain ⟨nodes, hmem, hcard⟩ := h.finished
    refine ⟨nodes, fun other => ?_, hcard⟩
    rw [hmem, get?_start]
    by_cases hother : other = node
    · simp [hother, habsent]
    · simp [hother]

/-- Closing the innermost frame keeps a memo `Consistent` if its node gets a `slot` that is not `inProgress` and
`finished` counts it. -/
private theorem close (h : m.Consistent) {frame : Frame} {rest : List Frame} (hframes : m.frames = frame :: rest)
    (slot : Option MemoEntry) (hslot : slot ≠ some .inProgress) {finished : Nat}
    (hfinished : ∃ nodes : Finset NodeId,
      (∀ other, other ∈ nodes ↔ ∃ t, (if other = frame.node then slot else m.get? other) = some (.done t)) ∧
        nodes.card = finished) :
    Consistent { m with entries := m.entries.set frame.node slot, frames := rest, finished } := by
  have hget (other : NodeId) :
      Memo.get? { m with entries := m.entries.set frame.node slot, frames := rest, finished } other =
        if other = frame.node then slot else m.get? other :=
    NodeMap.get?_set m.entries frame.node other slot
  have hdistinct := h.distinct
  rw [hframes, List.map_cons, List.nodup_cons] at hdistinct
  refine ⟨hdistinct.2, fun other => ?_, ?_⟩
  · rw [hget]
    by_cases hother : other = frame.node
    · simp only [hother, if_true, hslot, false_iff]
      exact hdistinct.1
    · rw [if_neg hother, h.inProgress, hframes, List.map_cons, List.mem_cons]
      simp only [hother, false_or]
  · simp only [hget]
    exact hfinished

/-- `finish` of the innermost open node keeps a memo `Consistent`. -/
theorem finish (h : m.Consistent) {outer : List NodeId} (hnodes : m.frames.map Frame.node = node :: outer)
    (type : Ty) : (m.finish node type).Consistent := by
  obtain ⟨frame, rest, hframes, rfl, -⟩ := List.map_eq_cons_iff.mp hnodes
  have hopen : m.get? frame.node = some .inProgress := by
    rw [h.inProgress, hnodes]
    exact List.mem_cons_self
  obtain ⟨nodes, hmem, hcard⟩ := h.finished
  have hnew : frame.node ∉ nodes := by
    rw [hmem, hopen]
    simp
  unfold Memo.finish
  simp only [hframes]
  split
  · -- the result is thrown away, so that no more nodes are finished than before
    refine h.close hframes none nofun ⟨nodes, fun other => ?_, hcard⟩
    rw [hmem]
    by_cases hother : other = frame.node
    · simp [hother, hopen]
    · simp [hother]
  · refine h.close hframes (some (.done type)) nofun ⟨insert frame.node nodes, fun other => ?_, ?_⟩
    · rw [Finset.mem_insert, hmem]
      by_cases hother : other = frame.node
      · simp [hother]
      · simp [hother]
    · rw [Finset.card_insert_of_notMem hnew, hcard]

theorem remove (h : m.Consistent) (node : NodeId) : (m.remove node).Consistent := by
  unfold Memo.remove
  split
  · next t hdone =>
    have hget (other : NodeId) :
        Memo.get? { m with entries := m.entries.erase node, finished := m.finished - 1 } other =
          if other = node then none else m.get? other :=
      NodeMap.get?_erase m.entries node other
    refine ⟨h.distinct, fun other => ?_, ?_⟩
    · rw [hget, ← h.inProgress other]
      by_cases hother : other = node
      · simp [hother, hdone]
      · simp [hother]
    · obtain ⟨nodes, hmem, hcard⟩ := h.finished
      refine ⟨nodes.erase node, fun other => ?_, ?_⟩
      · rw [hget, Finset.mem_erase, hmem]
        by_cases hother : other = node
        · simp [hother]
        · simp [hother]
      · rw [Finset.card_erase_of_mem ((hmem node).mpr ⟨t, hdone⟩), hcard]
  · exact h

theorem removeAll (h : m.Consistent) (nodes : List NodeId) : (nodes.foldl Memo.remove m).Consistent := by
  induction nodes generalizing m with
  | nil => exact h
  | cons node rest ih => exact ih (h.remove node)

end Consistent

end Ascribe.Memo
