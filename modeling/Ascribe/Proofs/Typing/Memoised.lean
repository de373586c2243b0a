import Ascribe.Proofs.Search.Returns
import Ascribe.Typing.Rules

/-!
# The questions that go through a memo

What the two memoised questions do to the state of a checker, case by case. The type of a node is looked up,
observed, or found by its rule between opening and finishing the node. What a named type stands for is looked
up, refused when too many named types are being resolved around it, or found between a mark and the question
whether anything leaked since.
-/

namespace Ascribe

/-- The state after a named type has been resolved since a mark: it is kept unless it depends on a node that
was open at the mark. -/
def Checker.keepResolved (c : Checker) (mark : Mark) (key : ReferenceKey) (t : Ty) : Checker :=
  if (c.memo.observedOutside mark).1 || t.isPlaceholder then
    { c with memo := (c.memo.observedOutside mark).2 }
  else
    { c with memo := (c.memo.observedOutside mark).2, resolved := c.resolved.insert key t }

/-- `keepResolved` changes the memo of node types only as `observedOutside` does. -/
theorem Checker.keepResolved_memo (c : Checker) (mark : Mark) (key : ReferenceKey) (t : Ty) :
    (c.keepResolved mark key t).memo = (c.memo.observedOutside mark).2 := by
  unfold Checker.keepResolved
  split <;> rfl

namespace Typing

variable {p : Tree} {q : Queries} {c c' : Checker} {v : Ty}

section TypeOf

variable {node : NodeId}

theorem typeOf_run_done {t : Ty} (h : c.memo.get? node = some (.done t)) :
    (typeOf p q node).run c = .ok (t, c) := by
  simp only [typeOf, StateT.run_bind, StateT.run_get, pure_bind, h]
  rfl

theorem typeOf_run_open (h : c.memo.get? node = some .inProgress) :
    (typeOf p q node).run c = .ok (.placeholder, { c with memo := c.memo.observe node }) := by
  simp only [typeOf, StateT.run_bind, StateT.run_get, pure_bind, h]
  rfl

theorem typeOf_run_absent (h : c.memo.get? node = none) :
    (typeOf p q node).run c = .ok (v, c') ↔
      ∃ form t c₁, p.form node = .ok form ∧
        (ruleFor p q node form).run { c with memo := c.memo.start node } = .ok (t, c₁) ∧
        v = t.orOrigin node ∧ c' = { c₁ with memo := c₁.memo.finish node (t.orOrigin node) } := by
  simp only [typeOf, StateT.run_bind, StateT.run_get, StateT.run_set, StateT.run_modify, pure_bind, h,
    bind_eq_ok, Prod.exists, Search.run_ofWalk_eq_ok, Search.run_pure_eq_ok]
  constructor
  · rintro ⟨form, _, ⟨hform, rfl⟩, t, c₁, hrule, hv, hc'⟩
    exact ⟨form, t, c₁, hform, hrule, hv, hc'⟩
  · rintro ⟨form, t, c₁, hform, hrule, hv, hc'⟩
    exact ⟨form, c, ⟨hform, rfl⟩, t, c₁, hrule, hv, hc'⟩

/-- `typeOf` of an absent node looks up its form, opens the node, runs `ruleFor` the form and finishes the node. -/
theorem typeOf_run_eq (h : c.memo.get? node = none) :
    (typeOf p q node).run c = (do
      let form ← p.form node
      let (t, c₁) ← (ruleFor p q node form).run { c with memo := c.memo.start node }
      return (t.orOrigin node, { c₁ with memo := c₁.memo.finish node (t.orOrigin node) })) := by
  refine (Search.run_bind_of_ok rfl).trans ?_
  rw [h]
  cases p.form node with
  | error fault => rfl
  | ok form => rfl

theorem typeOf_run_fault {form : Form} {fault : Fault} (h : c.memo.get? node = none) (hform : p.form node = .ok form)
    (hrule : (ruleFor p q node form).run { c with memo := c.memo.start node } = .error fault) :
    (typeOf p q node).run c = .error fault := by
  refine (Search.run_bind_of_ok rfl).trans ?_
  rw [h]
  refine (Search.run_bind_of_ok (Search.run_ofWalk_eq_ok.mpr ⟨hform, rfl⟩)).trans ?_
  exact (Search.run_bind_of_ok rfl).trans (Search.run_bind_of_error hrule)

/-- `typeOf` hands out a finished type, observes an open node, or types an absent one by `ruleFor`. -/
theorem typeOf_run_cases (h : (typeOf p q node).run c = .ok (v, c')) :
    (c.memo.get? node = some (.done v) ∧ c' = c) ∨
      (c.memo.get? node = some .inProgress ∧ c' = { c with memo := c.memo.observe node }) ∨
      c.memo.get? node = none ∧ ∃ form t c₁, p.form node = .ok form ∧
        (ruleFor p q node form).run { c with memo := c.memo.start node } = .ok (t, c₁) ∧
        v = t.orOrigin node ∧ c' = { c₁ with memo := c₁.memo.finish node (t.orOrigin node) } := by
  cases hentry : c.memo.get? node with
  | none => exact .inr (.inr ⟨rfl, (typeOf_run_absent hentry).mp h⟩)
  | some entry =>
    cases entry with
    | inProgress =>
      rw [typeOf_run_open hentry] at h
      obtain ⟨-, rfl⟩ := Prod.mk.inj (Except.ok.inj h)
      exact .inr (.inl ⟨rfl, rfl⟩)
    | done t =>
      rw [typeOf_run_done hentry] at h
      obtain ⟨rfl, rfl⟩ := Prod.mk.inj (Except.ok.inj h)
      exact .inl ⟨rfl, rfl⟩

end TypeOf

section Resolve

variable {r : Reference Ty} {depth : Nat}

theorem resolve_run_known {t : Ty} (h : c.resolved.get? r.key = some t) :
    (resolve p q depth r).run c = .ok (t, c) := by
  simp only [resolve, StateT.run_bind, StateT.run_get, pure_bind, h]
  rfl

theorem resolve_run_deep (h : c.resolved.get? r.key = none) (hdepth : c.settings.maxReferenceDepth ≤ depth) :
    (resolve p q depth r).run c = .ok (.error (.referenceDepth r.name), c) := by
  simp only [resolve, StateT.run_bind, StateT.run_get, pure_bind, h, if_pos hdepth]
  rfl

/-- `resolve` of a new named type takes a mark, computes by `expand` what the type stands for, and keeps that. -/
theorem resolve_run_eq (h : c.resolved.get? r.key = none) (hdepth : ¬ c.settings.maxReferenceDepth ≤ depth) :
    (resolve p q depth r).run c = (do
      let (t, c₁) ← (expand p q r).run { c with memo := c.memo.mark.2 }
      return (t, c₁.keepResolved c.memo.mark.1 r.key t)) := by
  simp only [resolve, StateT.run_bind, StateT.run_get, StateT.run_set, pure_bind, h, if_neg hdepth]
  congr 1
  funext found
  unfold Checker.keepResolved
  split <;> rfl

theorem resolve_run_new (h : c.resolved.get? r.key = none) (hdepth : ¬ c.settings.maxReferenceDepth ≤ depth) :
    (resolve p q depth r).run c = .ok (v, c') ↔
      ∃ c₁, (expand p q r).run { c with memo := c.memo.mark.2 } = .ok (v, c₁) ∧
        c' = c₁.keepResolved c.memo.mark.1 r.key v := by
  rw [resolve_run_eq h hdepth, bind_eq_ok]
  constructor
  · rintro ⟨⟨t, c₁⟩, hrun, hkept⟩
    obtain ⟨rfl, rfl⟩ := Prod.mk.inj (Except.ok.inj hkept)
    exact ⟨c₁, hrun, rfl⟩
  · rintro ⟨c₁, hrun, rfl⟩
    exact ⟨(v, c₁), hrun, rfl⟩

/-- `resolve` hands out what was kept, refuses a type that is too deep, or computes by `expand` what a new one stands
for. -/
theorem resolve_run_cases (h : (resolve p q depth r).run c = .ok (v, c')) :
    (c.resolved.get? r.key = some v ∧ c' = c) ∨
      (c.resolved.get? r.key = none ∧ c.settings.maxReferenceDepth ≤ depth ∧ c' = c) ∨
      c.resolved.get? r.key = none ∧ depth < c.settings.maxReferenceDepth ∧
        ∃ c₁, (expand p q r).run { c with memo := c.memo.mark.2 } = .ok (v, c₁) ∧
          c' = c₁.keepResolved c.memo.mark.1 r.key v := by
  cases hkept : c.resolved.get? r.key with
  | some t =>
    rw [resolve_run_known hkept] at h
    obtain ⟨rfl, rfl⟩ := Prod.mk.inj (Except.ok.inj h)
    exact .inl ⟨rfl, rfl⟩
  | none =>
    by_cases hdepth : c.settings.maxReferenceDepth ≤ depth
    · rw [resolve_run_deep hkept hdepth] at h
      obtain ⟨-, rfl⟩ := Prod.mk.inj (Except.ok.inj h)
      exact .inr (.inl ⟨rfl, hdepth, rfl⟩)
    · exact .inr (.inr ⟨rfl, Nat.not_le.mp hdepth, (resolve_run_new hkept hdepth).mp h⟩)

end Resolve

end Typing

end Ascribe
