import Ascribe.Proofs.Assignability.Aliases
import Ascribe.Proofs.Assignability.Merging

/-!
# Comparison over a fixed unfolding

If what named types stand for is given by a function, the resolver has no state and always answers
(`Unfolding.resolver`). A verdict is then a property of two types: `Unfolding.Accepts` says that comparing them
ends and accepts them. A comparison that goes deeper comes to the same verdict, so comparisons that accept can be
made to the same depth (`Unfolding.exists_acceptsAt`).

What is accepted under all assumptions (`Accepted`) is only known to be accepted if the comparison ends. It may not
end: what a named type stands for can be larger than the named type.
-/

namespace Ascribe

open Assignability

variable {σ : Type}

/-- Types that a comparison does not have to look into are `AcceptedUnder` all assumptions. -/
theorem AcceptedUnder.of_trivial {resolve : Resolver Unit} {assumed : Assumptions} {a e : Ty}
    (h : a.same e = true ∨ a.isNever = true ∨ a.isError = true) : AcceptedUnder resolve assumed a e := by
  refine ⟨1, (), (), ?_⟩
  rw [compareWithin, Comparer.step, Ty.beq_eq_same]
  by_cases hsame : a.same e = true
  · rw [if_pos hsame]
    rfl
  · have hpasses : (a.isNever || a.isError || e.isError || e.isAny) = true := by
      rcases h with h | h | h
      · exact absurd h hsame
      · simp [h]
      · simp [h]
    rw [if_pos hpasses, ite_self]
    rfl

namespace Unfolding

variable {f : Unfolding} {a e base : Ty}

/-- The resolver that answers as an unfolding does, whatever the state. -/
def resolver (f : Unfolding) : Resolver σ :=
  fun r => return f r

theorem resolver_follows : (f.resolver : Resolver σ).Follows f :=
  fun _ => .pure rfl

theorem resolver_follow (steps : Nat) (decl : Option NodeId) (t : Ty) :
    (f.resolver : Resolver σ).follow steps decl t = pure (f.follow steps decl t) := by
  induction steps generalizing decl t with
  | zero => rfl
  | succ steps ih =>
    rw [Resolver.follow, follow]
    cases t.reference? with
    | none => rfl
    | some r =>
      simp only [resolver, pure_bind]
      split
      · rfl
      · exact ih _ _

theorem resolver_target (t : Ty) : (f.resolver : Resolver σ).target t = pure (f.meaning t) := by
  rw [Resolver.target, Resolver.declared, resolver_follow, map_pure]
  rfl

theorem resolver_inherited (visits : Nat) (seen pending : List Ty) :
    (f.resolver : Resolver σ).inherited visits seen pending = pure (f.inherited visits seen pending) := by
  induction visits generalizing seen pending with
  | zero => rfl
  | succ visits ih =>
    rw [Resolver.inherited, inherited]
    cases pending.dropWhile seen.contains with
    | nil => rfl
    | cons t rest =>
      simp only [resolver_target, pure_bind, Ty.interface?, meaning]
      cases (f.declared t).2.shape <;> simp only [ih, pure_bind]

/-- `resolver` finds the `interfaceMethods` that the unfolding gives. -/
theorem resolver_interfaceMethods (body : InterfaceBody Ty) :
    (f.resolver : Resolver σ).interfaceMethods body = pure (f.interfaceMethods body) := by
  rw [Resolver.interfaceMethods, resolver_inherited, pure_bind]
  rfl

/-- `Accepted` is `Closed`: it contains whatever the rules justify from it. -/
theorem accepted_closed (watch : Ty → Ty → Search σ Unit) : Closed f (Accepted watch f.resolver) :=
  fun _ _ hrule => .of_rule resolver_follows hrule

/-- A comparison of a given depth accepts two types. -/
def AcceptsAt (f : Unfolding) (depth : Nat) (a e : Ty) : Prop :=
  (compareWithin f.resolver depth [] a e).run () = .ok (.ok (), ())

/-- Comparing two types ends, and accepts them. -/
def Accepts (f : Unfolding) (a e : Ty) : Prop :=
  ∃ depth, f.AcceptsAt depth a e

/-- Comparing two types ends, and none of the types it compares have the texts of one of some pairs without being
the same as that pair. -/
def EndsApart (f : Unfolding) (pairs : List (Ty × Ty)) (a e : Ty) : Prop :=
  ∃ depth v, (compareWatched (refuseNamesakes pairs) f.resolver depth [] a e).run () = .ok (v, ())

theorem accepts_iff : f.Accepts a e ↔ AcceptedUnder (σ := Unit) f.resolver [] a e :=
  ⟨fun ⟨depth, h⟩ => ⟨depth, (), (), h⟩, fun ⟨depth, (), (), h⟩ => ⟨depth, h⟩⟩

theorem AcceptsAt.mono {depth depth' : Nat} (h : f.AcceptsAt depth a e) (hdepth : depth ≤ depth') :
    f.AcceptsAt depth' a e := by
  rcases compareWithin_deepens f.resolver hdepth [] a e () with hdeep | hsame
  · cases h.symm.trans hdeep
  · exact hsame.trans h

/-- Finitely many pairs in `Accepts` are in `AcceptsAt` of one depth. -/
theorem exists_acceptsAt {pairs : List (Ty × Ty)} (h : ∀ p ∈ pairs, f.Accepts p.1 p.2) :
    ∃ depth, ∀ p ∈ pairs, f.AcceptsAt depth p.1 p.2 := by
  induction pairs with
  | nil => exact ⟨0, by simp⟩
  | cons p rest ih =>
    rw [List.forall_mem_cons] at h
    obtain ⟨depth, hp⟩ := h.1
    obtain ⟨depth', hrest⟩ := ih h.2
    refine ⟨max depth depth', List.forall_mem_cons.mpr ⟨hp.mono (Nat.le_max_left _ _), fun q hq => ?_⟩⟩
    exact (hrest q hq).mono (Nat.le_max_right _ _)

/-- What is `Accepted` is in `Accepts` if the comparison ends. -/
theorem EndsApart.accepts {pairs : List (Ty × Ty)} (h : f.EndsApart pairs a e)
    (haccepted : Accepted (σ := Unit) (refuseNamesakes pairs) f.resolver a e) : f.Accepts a e := by
  obtain ⟨depth, v, hrun⟩ := h
  have hholds := haccepted depth [] () v () hrun
  cases v with
  | error why => cases hholds
  | ok => exact ⟨depth, compareWithin_of_watched hrun⟩

/-- What is in `Accepts` is `Accepted`, whatever namesakes are refused. -/
theorem Accepts.accepted (hf : f.Respects) {pairs : List (Ty × Ty)} (hpairs : ∀ p ∈ pairs, f.Accepts p.1 p.2)
    (h : f.Accepts a e) : Accepted (σ := Unit) (refuseNamesakes pairs) f.resolver a e := by
  intro depth assumed
  exact compareWatched_accepts resolver_follows hf (fun p hp => accepts_iff.mp (hpairs p hp)) (List.nil_subset _)
    depth rfl rfl (accepts_iff.mp h)

theorem Accepts.of_same (h : a.same e = true) : f.Accepts a e :=
  accepts_iff.mpr (.of_trivial (.inl h))

/-- A pair in `Accepts` that is not compared `Comparer.byName` is justified by a `Rule` with premises in `Accepts`. -/
theorem Accepts.rule (h : f.Accepts a e) (hname : Comparer.byName a e = false) : Rule f f.Accepts a e :=
  ((accepts_iff.mp h).rule resolver_follows hname).mono fun _ _ => accepts_iff.mpr

end Unfolding

/-! ## Checks that all succeed -/

namespace Search

theorem run_allM {α : Type} {check : α → Search σ Bool} {s : σ} {xs : List α}
    (h : ∀ x ∈ xs, (check x).run s = .ok (true, s)) : (xs.allM check).run s = .ok (true, s) := by
  induction xs with
  | nil => rfl
  | cons x rest ih =>
    rw [List.forall_mem_cons] at h
    rw [List.allM, run_bind_eq_ok]
    exact ⟨true, s, h.1, ih h.2⟩

end Search

namespace Comparer

variable {c : Comparer σ} {assumed : Assumptions} {s : σ}

theorem run_every {α : Type} {check : α → Search σ Verdict} {xs : List α}
    (h : ∀ x ∈ xs, (check x).run s = .ok (.ok (), s)) : (every check xs).run s = .ok (.ok (), s) := by
  induction xs with
  | nil => rfl
  | cons x rest ih =>
    rw [List.forall_mem_cons] at h
    rw [every, Search.run_bind_eq_ok]
    exact ⟨.ok (), s, h.1, ih h.2⟩

theorem run_holds {a e : Ty} (h : (c.compare assumed a e).run s = .ok (.ok (), s)) :
    (c.holds assumed a e).run s = .ok (true, s) := by
  rw [holds, StateT.run_map, h]
  rfl

end Comparer

end Ascribe
