import Mathlib.Data.Finset.Card
import Ascribe.Checker
import Ascribe.Proofs.Memo.Growth
import Ascribe.Proofs.Typing.Ensures.Rules
import Ascribe.Proofs.Typing.Memoised

/-!
# Searches with bounded nesting

The answers to most questions are found without an infinite search: while the type of a node is being found the node is
open, the settings say how many named types are resolved inside each other, and what the place of a node asks for is
found by going up the tree. Only questions about types (which member a type has, what some types have in common, whether
one is assignable to another) have no such limit.

To say this, questions about types are counted: `bounded` gives the answers where at most `nesting` of them are answered
inside each other, and any further one is left to other answers. The depth that such a search needs is linear in the
number of absent nodes, of named types that may still be resolved, and of questions about types (`depthFor`), with the
size of the tree as the factor.

## Key results

- `bounded_deepens`: a search with a larger bound gives the same answer
- `bounded_total`: in a well-formed tree a search with bounded nesting gives an answer
-/

namespace Ascribe

/-! ## Searches with bounded nesting -/

/-- The answers that can be found by going at most so many levels deep, where at most `nesting` questions about types
are answered inside each other. A question about types that comes up inside so many is passed to `beyond`. -/
def bounded (beyond : Queries) (p : Tree) : Nat → Nat → Nat → Queries
  | 0, _, _ => .exhausted
  | depth + 1, nesting, references =>
    { typeOf := fun node => Typing.typeOf p (bounded beyond p depth nesting references) node
      resolve := fun r => Typing.resolve p (bounded beyond p depth nesting (references + 1)) references r
      expected := fun node => Typing.expected p (bounded beyond p depth nesting references) node
      common := fun types =>
        match nesting with
        | 0 => beyond.common types
        | nesting + 1 => Typing.common (bounded beyond p depth nesting references) types
      member := fun t name =>
        match nesting with
        | 0 => beyond.member t name
        | nesting + 1 => Typing.instanceMember (bounded beyond p depth nesting references) t name
      compare := fun assumed actual expected =>
        match nesting with
        | 0 => beyond.compare assumed actual expected
        | nesting + 1 => (bounded beyond p depth nesting references).comparer.step assumed actual expected }

/-- A depth at which a search with bounded nesting always comes to an end. -/
def depthFor (p : Tree) (settings : Settings) (nesting : Nat) : Nat :=
  (p.size + 2) * (p.size + settings.maxReferenceDepth + nesting + 1)

variable {p : Tree} {beyond : Queries}

/-- `bounded` is `answers` if the nesting is no less than the depth. -/
theorem bounded_eq_answers (beyond : Queries) {depth nesting : Nat} (h : depth ≤ nesting) (references : Nat) :
    bounded beyond p depth nesting references = answers p depth references := by
  induction depth generalizing nesting references with
  | zero => rfl
  | succ depth ih =>
    obtain ⟨nesting, rfl⟩ : ∃ k, nesting = k + 1 := ⟨nesting - 1, by omega⟩
    have hnodes := ih (Nat.le_of_succ_le h)
    have htypes := ih (Nat.le_of_succ_le_succ h) references
    simp only [bounded, answers, hnodes, htypes]

/-! ## Larger bounds -/

namespace Lockstep

theorem deepens_effects : (deepens Checker).Effects :=
  .of_aside fun _ => deepens_refl _

end Lockstep

namespace Typing

variable {q r : Queries} (h : q.InStep (.deepens Checker) r)

include h

theorem typeOf_deepens (node : NodeId) : (Lockstep.deepens Checker).Rel (typeOf p q node) (typeOf p r node) := by
  refine Lockstep.bind _ (Lockstep.deepens_refl _) fun c => ?_
  split
  · exact Lockstep.deepens_refl _
  · exact Lockstep.deepens_refl _
  · refine Lockstep.bind _ (Lockstep.deepens_refl _) fun form => Lockstep.bind _ (Lockstep.deepens_refl _) fun _ => ?_
    exact Lockstep.bind _ (ruleFor_rel h p Lockstep.deepens_effects node form) fun _ => Lockstep.deepens_refl _

theorem resolve_deepens (references : Nat) (ref : Reference Ty) :
    (Lockstep.deepens Checker).Rel (resolve p q references ref) (resolve p r references ref) := by
  refine Lockstep.bind _ (Lockstep.deepens_refl _) fun c => ?_
  split
  · exact Lockstep.deepens_refl _
  · split
    · exact Lockstep.deepens_refl _
    · refine Lockstep.bind _ (Lockstep.deepens_refl _) fun _ => ?_
      exact Lockstep.bind _ (expand_rel h p Lockstep.deepens_effects ref) fun _ => Lockstep.deepens_refl _

end Typing

/-- `bounded` that may go deeper and nest further does the same, unless the other one is cut short. -/
theorem bounded_deepens (beyond : Queries) (p : Tree) {depth deeper nesting further : Nat} (hdepth : depth ≤ deeper)
    (hnesting : nesting ≤ further) (references : Nat) :
    (bounded beyond p deeper further references).InStep (.deepens Checker)
      (bounded .exhausted p depth nesting references) := by
  induction depth generalizing deeper nesting further references with
  | zero => exact Queries.inStep_exhausted Lockstep.deepens_exhausted _
  | succ depth ih =>
    obtain ⟨deeper, rfl⟩ : ∃ k, deeper = k + 1 := ⟨deeper - 1, by omega⟩
    have hnodes := ih (Nat.le_of_succ_le_succ hdepth) hnesting
    cases nesting with
    | zero =>
      exact ⟨Typing.typeOf_deepens (hnodes references), Typing.resolve_deepens (hnodes (references + 1)) references,
        Typing.expected_rel (hnodes references) p, fun _ => Lockstep.deepens_exhausted _,
        fun _ _ => Lockstep.deepens_exhausted _, fun _ _ _ => Lockstep.deepens_exhausted _⟩
    | succ nesting =>
      obtain ⟨further, rfl⟩ : ∃ k, further = k + 1 := ⟨further - 1, by omega⟩
      have htypes := ih (Nat.le_of_succ_le_succ hdepth) (Nat.le_of_succ_le_succ hnesting) references
      exact ⟨Typing.typeOf_deepens (hnodes references), Typing.resolve_deepens (hnodes (references + 1)) references,
        Typing.expected_rel (hnodes references) p, Typing.common_rel htypes, Typing.instanceMember_rel htypes,
        htypes.comparer.step⟩

theorem bounded_deepens_answers (beyond : Queries) (p : Tree) {depth deeper further : Nat} (hdepth : depth ≤ deeper)
    (hfurther : depth ≤ further) (references : Nat) :
    (bounded beyond p deeper further references).InStep (.deepens Checker) (answers p depth references) := by
  rw [← bounded_eq_answers .exhausted (Nat.le_refl depth)]
  exact bounded_deepens beyond p hdepth hfurther references

theorem answers_deepens (p : Tree) {depth deeper : Nat} (h : depth ≤ deeper) (references : Nat) :
    (answers p deeper references).InStep (.deepens Checker) (answers p depth references) := by
  rw [← bounded_eq_answers .exhausted (Nat.le_refl deeper)]
  exact bounded_deepens_answers .exhausted p h h references

/-! ## Absent nodes -/

namespace Memo

variable {size : Nat} {m m' : Memo} {node : NodeId}

/-- The nodes of an arena that are neither open nor finished. -/
def absent (size : Nat) (m : Memo) : Finset NodeId :=
  {node ∈ Finset.range size | (m.get? node).isNone}

theorem mem_absent : node ∈ m.absent size ↔ node < size ∧ m.get? node = none := by
  simp [absent]

theorem absent_congr (h : ∀ other, m'.get? other = m.get? other) : m'.absent size = m.absent size := by
  simp [absent, h]

theorem card_absent_le (size : Nat) (m : Memo) : (m.absent size).card ≤ size :=
  (Finset.card_filter_le _ _).trans (Finset.card_range size).le

/-- `start` makes an absent node absent no longer. -/
theorem card_absent_start (hnode : node < size) (h : m.get? node = none) :
    ((m.start node).absent size).card < (m.absent size).card := by
  refine Finset.card_lt_card ((Finset.ssubset_iff_of_subset fun other hother => ?_).mpr ⟨node, ?_, ?_⟩)
  · rw [mem_absent, get?_start] at hother
    split at hother
    · cases hother.2
    · exact mem_absent.mpr hother
  · exact mem_absent.mpr ⟨hnode, h⟩
  · simp [mem_absent, get?_start]

/-- `finish` makes at most its node absent. -/
theorem card_absent_finish (m : Memo) (node : NodeId) (t : Ty) :
    ((m.finish node t).absent size).card ≤ (m.absent size).card + 1 := by
  obtain ⟨slot, -, hget⟩ := m.get?_finish_cases node t
  refine (Finset.card_le_card fun other hother => ?_).trans (Finset.card_insert_le node _)
  rw [mem_absent, hget] at hother
  by_cases h : other = node
  · exact Finset.mem_insert.mpr (.inl h)
  · rw [if_neg h] at hother
    exact Finset.mem_insert_of_mem (mem_absent.mpr hother)

end Memo

/-! ## Checkers that point into an arena -/

namespace Checker

/-- The types that a checker keeps point into an arena. -/
structure Within (size : Nat) (c : Checker) : Prop where
  types : ∀ {node t}, c.memo.get? node = some (.done t) → t.Within size
  resolved : ∀ {key t}, c.resolved.get? key = some t → t.Within size

/-- A checker with given settings whose types point into an arena, and at most so many of whose nodes are absent. -/
structure Bounded (size : Nat) (settings : Settings) (room : Nat) (c : Checker) : Prop extends c.Within size where
  settings : c.settings = settings
  absent : (c.memo.absent size).card ≤ room

variable {size room : Nat} {settings : Settings} {c : Checker}

/-- A new checker keeps nothing, so it is `Within` any size. -/
theorem within_new (size : Nat) (settings : Settings) : Within size { settings } where
  types h := by cases h
  resolved h := by cases h

theorem Within.bounded (h : c.Within size) : c.Bounded size c.settings size :=
  ⟨h, rfl, c.memo.card_absent_le size⟩

theorem bounded_indifferent : Indifferent (Bounded size settings room) := by
  intro c c' hsettings hmemo hresolved hc
  refine ⟨⟨fun h => hc.types (hmemo ▸ h), fun h => hc.resolved (hresolved ▸ h)⟩, hsettings.trans hc.settings, ?_⟩
  rw [hmemo]
  exact hc.absent

/-- `Bounded` depends on what the memo looks up by `get?`. -/
theorem Bounded.withMemo (h : c.Bounded size settings room) {memo : Memo}
    (hmemo : ∀ other, memo.get? other = c.memo.get? other) : Bounded size settings room { c with memo } := by
  refine ⟨⟨fun hdone => h.types (hmemo _ ▸ hdone), h.resolved⟩, h.settings, ?_⟩
  rw [Memo.absent_congr hmemo]
  exact h.absent

theorem Bounded.start (h : c.Bounded size settings (room + 1)) {node : NodeId} (hnode : node < size)
    (habsent : c.memo.get? node = none) : Bounded size settings room { c with memo := c.memo.start node } := by
  refine ⟨⟨fun {other t} hdone => ?_, h.resolved⟩, h.settings, ?_⟩
  · rw [Memo.get?_start] at hdone
    split at hdone
    · cases hdone
    · exact h.types hdone
  · have hstart := Memo.card_absent_start hnode habsent
    have hroom := h.absent
    dsimp only at hstart ⊢
    omega

theorem Bounded.finish (h : c.Bounded size settings room) (node : NodeId) {t : Ty} (ht : t.Within size) :
    Bounded size settings (room + 1) { c with memo := c.memo.finish node t } := by
  refine ⟨⟨fun {other u} hdone => ?_, h.resolved⟩, h.settings, ?_⟩
  · obtain ⟨slot, hslot, hget⟩ := c.memo.get?_finish_cases node t
    rw [hget] at hdone
    split at hdone
    · rcases hslot with rfl | rfl
      · cases hdone
      · obtain ⟨rfl⟩ := hdone
        exact ht
    · exact h.types hdone
  · exact (c.memo.card_absent_finish node t).trans (Nat.succ_le_succ h.absent)

theorem Bounded.keepResolved (h : c.Bounded size settings room) (mark : Mark) (key : ReferenceKey) {t : Ty}
    (ht : t.Within size) : Bounded size settings room (c.keepResolved mark key t) := by
  have hmemo : Bounded size settings room { c with memo := (c.memo.observedOutside mark).2 } :=
    h.withMemo fun _ => rfl
  unfold Checker.keepResolved
  split
  · exact hmemo
  · refine ⟨⟨hmemo.types, fun {other u} hkept => ?_⟩, hmemo.settings, hmemo.absent⟩
    rw [Table.get?_insert] at hkept
    split at hkept
    · exact Option.some.inj hkept ▸ ht
    · exact h.resolved hkept

end Checker

/-! ## Questions about a tree -/

/-- Questions about types are answered. -/
structure Queries.Judges (p : Tree) (I : Checker → Prop) (q : Queries) : Prop where
  common : ∀ {types : List Ty}, (∀ t ∈ types, t.Within p.size) →
    (q.common types).TotalUnder I fun t => ∀ u ∈ t, u.Within p.size
  member : ∀ {t : Ty} {name}, t.Within p.size → (q.member t name).TotalUnder I (Ty.Within p.size)
  compare : ∀ {assumed} {a e : Ty}, a.Within p.size → e.Within p.size →
    (q.compare assumed a e).TotalUnder I fun _ => True

/-- Questions about the nodes of a tree, and about types that point into it, are answered. -/
def Queries.TotalUnder (p : Tree) (I : Checker → Prop) (q : Queries) : Prop :=
  q.Ensures True (.arena p.size) I

theorem Queries.TotalUnder.typeOf {q : Queries} {I : Checker → Prop} (h : q.TotalUnder p I) {node : NodeId}
    (hnode : node < p.size) : (q.typeOf node).TotalUnder I (Ty.Within p.size) :=
  Search.ensures_true_iff.mp (FindsIn.typeOf (Ensures.toFindsIn h) (decide_eq_true hnode))

/-- `Queries` are `TotalUnder` an invariant if those about nodes, about types and about the places of nodes are
answered. -/
theorem Queries.Judges.total {q : Queries} {I : Checker → Prop} (hjudges : q.Judges p I)
    (hfinds : q.FindsIn True (.arena p.size) I)
    (hexpected : ∀ {node}, node < p.size → (q.expected node).Ensures True I fun t =>
      ∀ u ∈ t, u.InScope (.arena p.size)) :
    q.TotalUnder p I where
  toFindsIn := hfinds
  common htypes := Search.ensures_true_iff.mpr (hjudges.common htypes)
  member ht := Search.ensures_true_iff.mpr (hjudges.member ht)
  compare ha he := Search.ensures_true_iff.mpr (hjudges.compare ha he)
  expected hnode := hexpected (of_decide_eq_true hnode)

/-! ## The questions that go through a memo -/

namespace Typing

variable {q : Queries} {settings : Settings} {room : Nat}

/-- `typeOf` finds the type of a node if questions are answered while one more node is open. -/
theorem typeOf_total (hp : p.WellFormed)
    (h : ∀ left, room = left + 1 → q.TotalUnder p (Checker.Bounded p.size settings left))
    {node : NodeId} (hnode : node < p.size) :
    (typeOf p q node).TotalUnder (Checker.Bounded p.size settings room) (Ty.Within p.size) := by
  intro c hc
  cases hentry : c.memo.get? node with
  | none =>
    have hroom := hc.absent
    have hpos : 0 < (c.memo.absent p.size).card := Finset.card_pos.mpr ⟨node, Memo.mem_absent.mpr ⟨hnode, hentry⟩⟩
    obtain ⟨left, rfl⟩ : ∃ left, room = left + 1 := ⟨room - 1, by omega⟩
    obtain ⟨form, hform, hform?⟩ := Tree.form_ok hnode
    have hrule := Search.ensures_true_iff.mp
      (ruleFor_ensures (h left rfl) hp.inScope Checker.bounded_indifferent.logging hform?)
    obtain ⟨t, c₁, hrun, hc₁, ht⟩ := hrule _ (hc.start hnode hentry)
    have horigin : (t.orOrigin node).Within p.size := ht.orOrigin (decide_eq_true hnode)
    exact ⟨_, _, (typeOf_run_absent hentry).mpr ⟨form, t, c₁, hform, hrun, rfl, rfl⟩, hc₁.finish node horigin, horigin⟩
  | some entry =>
    cases entry with
    | inProgress =>
      exact ⟨_, _, typeOf_run_open hentry, hc.withMemo (Memo.get?_observe c.memo node), Ty.error_within _⟩
    | done t => exact ⟨t, c, typeOf_run_done hentry, hc, hc.types hentry⟩

/-- `resolve` finds what a named type stands for if questions are answered inside one more named type. -/
theorem resolve_total (hp : p.WellFormed) {references : Nat}
    (h : references < settings.maxReferenceDepth →
      q.TotalUnder p (Checker.Bounded p.size settings room))
    {r : Reference Ty} (hr : (Shape.ref r).InScope (.arena p.size)) :
    (resolve p q references r).TotalUnder (Checker.Bounded p.size settings room) (Ty.Within p.size) := by
  intro c hc
  cases hkept : c.resolved.get? r.key with
  | some t => exact ⟨t, c, resolve_run_known hkept, hc, hc.resolved hkept⟩
  | none =>
    by_cases hdeep : c.settings.maxReferenceDepth ≤ references
    · exact ⟨_, c, resolve_run_deep hkept hdeep, hc, Ty.error_within _⟩
    · have hbelow : references < settings.maxReferenceDepth := hc.settings ▸ Nat.not_le.mp hdeep
      have hmark : Checker.Bounded p.size settings room { c with memo := c.memo.mark.2 } := hc.withMemo fun _ => rfl
      have hexpand := Search.ensures_true_iff.mp
        (expand_ensures (h hbelow) hp.inScope Checker.bounded_indifferent.logging hr)
      obtain ⟨t, c₁, hrun, hc₁, ht⟩ := hexpand _ hmark
      exact ⟨t, _, (resolve_run_new hkept hdeep).mpr ⟨c₁, hrun, rfl⟩, hc₁.keepResolved _ _ ht, ht⟩

end Typing

/-! ## Searches with bounded nesting come to an end -/

section Bounded

variable (hp : p.WellFormed) {settings : Settings} {room nesting references : Nat}

include hp

/-- A level of `bounded` needs one absent node, one named type or one question about types less than it is given. -/
theorem bounded_succ_total (hbeyond : ∀ I, beyond.Judges p I) {depth : Nat}
    (hopen : ∀ left, room = left + 1 →
      (bounded beyond p depth nesting references).TotalUnder p (Checker.Bounded p.size settings left))
    (hnamed : references < settings.maxReferenceDepth →
      (bounded beyond p depth nesting (references + 1)).TotalUnder p (Checker.Bounded p.size settings room))
    (hjudged : ∀ fewer, nesting = fewer + 1 →
      (bounded beyond p depth fewer references).TotalUnder p (Checker.Bounded p.size settings room)) :
    (bounded beyond p (depth + 1) nesting references).FindsIn True (.arena p.size)
        (Checker.Bounded p.size settings room) ∧
      (bounded beyond p (depth + 1) nesting references).Judges p (Checker.Bounded p.size settings room) := by
  refine ⟨⟨fun hnode => ?_, fun hshape ht => ?_⟩, ?_⟩
  · exact Search.ensures_true_iff.mpr (Typing.typeOf_total hp hopen (of_decide_eq_true hnode))
  · exact Search.ensures_true_iff.mpr (Typing.resolve_total hp hnamed (ht.shape hshape))
  · cases nesting with
    | zero => exact ⟨(hbeyond _).common, (hbeyond _).member, (hbeyond _).compare⟩
    | succ fewer =>
      have h := hjudged fewer rfl
      refine ⟨fun ht => ?_, fun ht => ?_, fun ha he => ?_⟩
      · exact Search.ensures_true_iff.mp (Typing.common_ensures h ht)
      · exact Search.ensures_true_iff.mp (Typing.instanceMember_ensures h ht _)
      · exact Search.ensures_true_iff.mp (h.step ha he)

/-- `expected` finds what the place of a node asks for by going up the tree, one level of `bounded` for each node above.
-/
theorem bounded_expected_total {I : Checker → Prop} {start : Nat}
    (hfinds : ∀ {depth}, start ≤ depth →
      (bounded beyond p depth nesting references).FindsIn True (.arena p.size) I) {depth : Nat}
    {node : NodeId} (hdepth : start + p.height node < depth) :
    ((bounded beyond p depth nesting references).expected node).Ensures True I fun t =>
      ∀ u ∈ t, u.InScope (.arena p.size) := by
  induction depth generalizing node with
  | zero => omega
  | succ depth ih =>
    refine Typing.expected_ensures hp.inScope (hfinds (by omega)) fun {up} hheight _ => ih ?_
    have := hheight trivial
    omega

/-- `bounded` gives an answer, at a depth that grows with the number of absent nodes, of named types that may still be
resolved and of questions about types that may still be asked. -/
theorem bounded_total (hbeyond : ∀ I, beyond.Judges p I) {total left depth : Nat}
    (htotal : room + left + nesting ≤ total) (hleft : settings.maxReferenceDepth ≤ references + left)
    (hdepth : (p.size + 2) * (total + 1) ≤ depth) :
    (bounded beyond p depth nesting references).TotalUnder p (Checker.Bounded p.size settings room) := by
  induction total using Nat.strong_induction_on generalizing room left nesting references depth with
  | _ total ih =>
    have below {room left nesting references depth : Nat} (hless : room + left + nesting < total)
        (hleft : settings.maxReferenceDepth ≤ references + left) (hdepth : (p.size + 2) * total ≤ depth) :
        (bounded beyond p depth nesting references).TotalUnder p (Checker.Bounded p.size settings room) := by
      refine ih (total - 1) (by omega) (by omega) hleft ?_
      rwa [Nat.sub_add_cancel (by omega)]
    -- every question but the one about the place of a node makes one of the three numbers smaller
    have hlevel {depth : Nat} (hdepth : (p.size + 2) * total + 1 ≤ depth) :
        (bounded beyond p depth nesting references).FindsIn True (.arena p.size)
            (Checker.Bounded p.size settings room) ∧
          (bounded beyond p depth nesting references).Judges p (Checker.Bounded p.size settings room) := by
      obtain ⟨depth, rfl⟩ : ∃ k, depth = k + 1 := ⟨depth - 1, by omega⟩
      refine bounded_succ_total hp hbeyond (fun fewer hroom => ?_) (fun hnamed => ?_) fun fewer hnesting => ?_
      · exact below (by omega) hleft (by omega)
      · exact below (by omega : room + (left - 1) + nesting < total) (by omega) (by omega)
      · exact below (by omega) hleft (by omega)
    -- and the place of a node is asked about once for each node above
    have hexpected : (p.size + 2) * total + 1 + p.size < depth := by
      rw [Nat.mul_succ] at hdepth
      omega
    obtain ⟨hfinds, hjudges⟩ := hlevel (by omega : (p.size + 2) * total + 1 ≤ depth)
    refine hjudges.total hfinds fun {node} _ => bounded_expected_total hp (fun h => (hlevel h).1) ?_
    have := p.height_le_size node
    omega

end Bounded

end Ascribe
