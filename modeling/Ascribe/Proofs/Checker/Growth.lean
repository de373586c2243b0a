import Ascribe.Proofs.Memo.Growth
import Ascribe.Proofs.Typing.Lockstep
import Ascribe.Proofs.Typing.Memoised

/-!
# How a checker grows

Answering questions lets the memos of a checker grow and keeps its settings (`Checker.Grows`), whatever the
tree and however deep the questions nest (`answers_growing`). This is an invariant of the whole engine: it is
a lockstep of every search with itself (`Lockstep.growing`), so only the memoised questions have to be
looked at.
-/

namespace Ascribe

/-- What answering a question may do to a checker. -/
structure Checker.Grows (c c' : Checker) : Prop where
  settings : c'.settings = c.settings
  memo : c.memo.Grows c'.memo
  resolved : ∀ {key t}, c.resolved.get? key = some t → c'.resolved.get? key = some t

namespace Checker.Grows

theorem refl (c : Checker) : c.Grows c :=
  ⟨rfl, .refl _, id⟩

theorem trans {c c' c'' : Checker} (h : c.Grows c') (h' : c'.Grows c'') : c.Grows c'' :=
  ⟨h'.settings.trans h.settings, h.memo.trans h'.memo, fun hkept => h'.resolved (h.resolved hkept)⟩

/-- `keepResolved` replaces nothing that was kept before the named type was resolved. Something may have been kept for
it meanwhile. -/
theorem keepResolved {c c₁ : Checker} (h : c.Grows c₁) {key : ReferenceKey} (habsent : c.resolved.get? key = none)
    (mark : Mark) (t : Ty) : c.Grows (c₁.keepResolved mark key t) := by
  have hmemo := h.memo.trans (.observedOutside c₁.memo mark)
  unfold Checker.keepResolved
  split
  · exact ⟨h.settings, hmemo, h.resolved⟩
  · refine ⟨h.settings, hmemo, fun {other u} hother => ?_⟩
    have hne : other ≠ key := by
      rintro rfl
      exact nomatch habsent.symm.trans hother
    rw [Table.get?_insert, if_neg (by simpa using hne)]
    exact h.resolved hother

end Checker.Grows

/-- A search that lets the checker grow. -/
def Infer.Growing {α : Type} (x : Infer α) : Prop :=
  ∀ c v c', x.run c = .ok (v, c') → c.Grows c'

/-- Searches that let the checker grow, as a lockstep. -/
def Lockstep.growing : Lockstep Checker Checker where
  Rel x _ := Infer.Growing x
  pure a := by
    intro c v c' h
    obtain ⟨-, rfl⟩ := Search.run_pure_eq_ok.mp h
    exact .refl c'
  throw fault := by
    intro c v c' h
    exact nomatch h
  bind := by
    intro α β x y k l hx hk c v c' h
    obtain ⟨a, c₁, ha, hv⟩ := Search.run_bind_eq_ok.mp h
    exact (hx c a c₁ ha).trans (hk a c₁ v c' hv)

theorem Infer.Aside.growing {α : Type} {x : Infer α} (haside : x.Aside) : x.Growing := by
  intro c v c' hrun
  obtain ⟨answer, hanswer⟩ := haside
  obtain ⟨c₁, hrun₁, hsettings, hmemo, hresolved⟩ := hanswer c
  obtain ⟨-, rfl⟩ := Prod.mk.inj (Except.ok.inj (hrun.symm.trans hrun₁))
  exact ⟨hsettings, hmemo ▸ .refl _, fun hkept => hresolved ▸ hkept⟩

theorem Lockstep.growing_effects : Lockstep.growing.Effects :=
  .of_aside fun haside => haside.growing

namespace Typing

variable {p : Tree} {q : Queries} (h : q.InStep Lockstep.growing q)

include h

theorem typeOf_growing (node : NodeId) : (typeOf p q node).Growing := by
  intro c v c' hrun
  obtain ⟨-, rfl⟩ | ⟨-, rfl⟩ | ⟨habsent, form, t, c₁, -, hrule, rfl, rfl⟩ := typeOf_run_cases hrun
  · exact .refl c'
  · exact ⟨rfl, .observe c.memo node, id⟩
  · have hgrows := ruleFor_rel h p Lockstep.growing_effects node form _ _ _ hrule
    exact ⟨hgrows.settings, hgrows.memo.finish habsent _, hgrows.resolved⟩

theorem resolve_growing (depth : Nat) (r : Reference Ty) : (resolve p q depth r).Growing := by
  intro c v c' hrun
  obtain ⟨-, rfl⟩ | ⟨-, -, rfl⟩ | ⟨habsent, -, c₁, hexpand, rfl⟩ := resolve_run_cases hrun
  · exact .refl c'
  · exact .refl c'
  · have hmark : c.Grows { c with memo := c.memo.mark.2 } := ⟨rfl, .mark c.memo, id⟩
    have hgrows := expand_rel h p Lockstep.growing_effects r _ _ _ hexpand
    exact (hmark.trans hgrows).keepResolved habsent _ _

end Typing

/-- `answers` let the checker grow, however deep they go. -/
theorem answers_growing (p : Tree) (depth references : Nat) :
    (answers p depth references).InStep Lockstep.growing (answers p depth references) := by
  induction depth generalizing references with
  | zero => exact Queries.exhausted_inStep
  | succ depth ih =>
    rw [answers_succ]
    exact Queries.above_inStep (ih references) (Typing.typeOf_growing (ih references))
      (Typing.resolve_growing (ih (references + 1)) references)

end Ascribe
