import Ascribe.Proofs.Checker.Session
import Ascribe.Proofs.Checker.Unfolding
import Ascribe.Proofs.Typing.Branches

/-!
# Answers from what a checker has kept

Merging and comparing types asks only what named types stand for, and a checker keeps that. So a merge or a comparison
that a checker has made can be made again by looking named types up, in the checker that is left or any that it grows
into. What named types stand for is then fixed (`Checker.kept`), even if the checker would have kept something else
had it been asked in another order.

The one thing that is not kept is that a named type stands for the placeholder. The answers `firm` refuse it.

## Key results

- `answers_refines_firm`: the answers are the firm answers wherever the latter exist
- `Checker.lookups_replays`: what a checker has answered firmly can be looked up later on
- `Checker.lookups_sound`: types are assignable to what they are merged into by looking named types up
-/

namespace Ascribe

open Assignability

/-! ## Firm answers -/

/-- What a named type stands for through the memo, unless that is the placeholder. -/
def Typing.firmResolve (p : Tree) (q : Queries) (r : Reference Ty) : Infer Ty := do
  let t ← resolve p q 0 r
  if t.isPlaceholder then Search.exhausted else return t

/-- The answers through the memos to what merging and comparing types asks, where no named type may stand for the
placeholder. -/
def firm (p : Tree) : Nat → Queries
  | 0 => .exhausted
  | depth + 1 =>
    .above p (fun _ => Search.exhausted) (fun r => Typing.firmResolve p (answers p depth 1) r) fun _ => firm p depth

/-- The firm answers for a host who has made some settings. -/
def Checker.firmFor (p : Tree) (settings : Settings) : Queries :=
  firm p (questionDepth p settings)

variable {p : Tree} {c c' : Checker}

theorem Typing.run_firmResolve {q : Queries} {r : Reference Ty} {t : Ty}
    (h : (firmResolve p q r).run c = .ok (t, c')) :
    (resolve p q 0 r).run c = .ok (t, c') ∧ t.isPlaceholder = false := by
  obtain ⟨u, c₁, hresolve, hrun⟩ := Search.run_bind_eq_ok.mp h
  split at hrun
  · exact nomatch hrun
  · next hfirm =>
    obtain ⟨rfl, rfl⟩ := Search.run_pure_eq_ok.mp hrun
    exact ⟨hresolve, Bool.eq_false_of_not_eq_true hfirm⟩

/-- `answers` are those of `firm` wherever the latter exist. -/
theorem answers_refines_firm (depth : Nat) : (answers p depth 0).InStep .refines (firm p depth) := by
  induction depth with
  | zero => exact Queries.inStep_exhausted Lockstep.refines_exhausted _
  | succ depth ih =>
    rw [answers_succ]
    refine Queries.above_inStep ih (fun _ => Lockstep.refines_exhausted _) fun r => ?_
    exact fun c t c' hrun => (Typing.run_firmResolve hrun).1

/-! ## Looking named types up -/

namespace Checker

/-- What named types stand for as far as a checker has kept it; any other named type stands for itself. -/
def kept (c : Checker) : Unfolding :=
  fun r => (c.resolved.get? r.key).getD (.of (.ref r))

/-- Look up what a checker has kept for a named type. -/
def lookup (c : Checker) : Resolver Checker :=
  fun r => match c.resolved.get? r.key with
    | some t => return t
    | none => Search.exhausted

/-- The answers to what merging and comparing types asks, where named types are looked up in one checker. -/
def lookups (p : Tree) (c : Checker) : Nat → Queries
  | 0 => { Queries.exhausted with resolve := c.lookup }
  | depth + 1 => .above p (fun _ => Search.exhausted) c.lookup fun _ => lookups p c depth

theorem kept_respects (c : Checker) : c.kept.Respects := by
  intro r r' h
  rw [kept, kept, Reference.key_congr h]
  cases c.resolved.get? r'.key with
  | none => exact h
  | some t => exact t.same_refl

theorem lookup_follows (c : Checker) : c.lookup.Follows c.kept := by
  intro r
  unfold lookup kept
  split
  · next hkept =>
    rw [hkept]
    exact .pure rfl
  · exact .exhausted

theorem lookups_comparer (c : Checker) (depth : Nat) :
    (c.lookups p depth).comparer = .ofResolver c.lookup depth := by
  induction depth with
  | zero => rfl
  | succ depth ih => exact congrArg (fun below : Comparer Checker => (⟨c.lookup, below.step⟩ : Comparer Checker)) ih

theorem lookups_compare (c : Checker) (depth : Nat) :
    (c.lookups p depth).compare = compareWithin c.lookup depth :=
  congrArg Comparer.compare (c.lookups_comparer depth)

theorem accepted_closed (c : Checker) : Closed c.kept (Accepted (refuseNamesakes []) c.lookup) :=
  fun _ _ hrule => .of_rule c.lookup_follows hrule

/-- `lookups` are `Sound` for `kept` and for what is accepted by `lookup`. -/
theorem lookups_sound (c : Checker) (depth : Nat) :
    (c.lookups p depth).Sound c.kept (Accepted (refuseNamesakes []) c.lookup) := by
  induction depth with
  | zero => exact ⟨c.lookup_follows, fun _ _ => .exhausted, fun _ _ => .exhausted⟩
  | succ depth ih =>
    refine ⟨c.lookup_follows, fun a e => ?_, fun types hmerge => Typing.common_sound ih hmerge c.accepted_closed⟩
    rw [lookups_compare]
    exact (AcceptedUnder.judges (depth + 1) a e).mono id fun h => h.accepted c.lookup_follows c.kept_respects

/-! ## Firm answers can be looked up -/

/-- A checker that keeps every named type it resolves, unless it stands for the placeholder. -/
structure Ready (c : Checker) : Prop where
  idle : c.memo.Idle
  depth : 0 < c.settings.maxReferenceDepth

theorem Ready.grows (h : c.Ready) (hgrows : c.Grows c') : c'.Ready :=
  ⟨h.idle.grows hgrows.memo, hgrows.settings ▸ h.depth⟩

theorem Ready.resolve {q : Queries} {r : Reference Ty} {t : Ty} (h : c.Ready)
    (hrun : (Typing.resolve p q 0 r).run c = .ok (t, c')) (hfirm : t.isPlaceholder = false) :
    c'.resolved.get? r.key = some t := by
  obtain ⟨hkept, rfl⟩ | ⟨-, hdeep, -⟩ | ⟨-, -, c₁, -, rfl⟩ := Typing.resolve_run_cases hrun
  · exact hkept
  · exact absurd hdeep (Nat.not_le.mpr h.depth)
  · -- nothing is open that could have been observed
    have hapart : (c₁.memo.observedOutside c.memo.mark.1).1 = false := by
      simp [Memo.observedOutside, Memo.mark, h.idle.frames]
    simp [keepResolved, hapart, hfirm]

end Checker

/-- A search that finds in any state what another one has found on a checker that keeps named types, if the checker
that the other one left has grown into a given one. -/
def Lockstep.replays (later : Checker) : Lockstep Checker Checker where
  Rel x y := ∀ c v c', c.Ready → y.run c = .ok (v, c') →
    c.Grows c' ∧ (c'.Grows later → ∀ s, x.run s = .ok (v, s))
  pure a := by
    intro c v c' _ hrun
    obtain ⟨rfl, rfl⟩ := Search.run_pure_eq_ok.mp hrun
    exact ⟨.refl c', fun _ _ => rfl⟩
  throw fault := fun c v c' _ hrun => nomatch hrun
  bind := by
    intro α β x y k l hx hk c w c' hc hrun
    obtain ⟨v, c₁, hv, hw⟩ := Search.run_bind_eq_ok.mp hrun
    obtain ⟨hgrows, hfirst⟩ := hx c v c₁ hc hv
    obtain ⟨hgrows', hrest⟩ := hk v c₁ w c' (hc.grows hgrows) hw
    refine ⟨hgrows.trans hgrows', fun hlater s => Search.run_bind_eq_ok.mpr ?_⟩
    exact ⟨v, s, hfirst (hgrows'.trans hlater) s, hrest hlater s⟩

namespace Checker

/-- `lookups` in every checker that a checker grows into replay what it has answered by `firm`. -/
theorem lookups_replays (later : Checker) (depth : Nat) :
    (later.lookups p depth).InStep (.replays later) (firm p depth) := by
  have hrefused {α : Type} (x : Infer α) : (Lockstep.replays later).Rel x Search.exhausted :=
    fun c v c' _ hrun => nomatch hrun
  induction depth with
  | zero => exact Queries.inStep_exhausted hrefused _
  | succ depth ih =>
    refine Queries.above_inStep ih (fun _ => hrefused _) fun r c t c' hc hrun => ?_
    obtain ⟨hresolve, hfirm⟩ := Typing.run_firmResolve hrun
    refine ⟨Typing.resolve_growing (answers_growing p depth 1) 0 r c t c' hresolve, fun hlater s => ?_⟩
    rw [lookup, hlater.resolved (hc.resolve hresolve hfirm)]
    rfl

end Checker

end Ascribe
