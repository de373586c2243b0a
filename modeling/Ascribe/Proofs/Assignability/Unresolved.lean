import Ascribe.Proofs.Assignability.Coinduction
import Ascribe.Proofs.Assignability.Lockstep
import Ascribe.Proofs.Assignability.StepSpec
import Ascribe.Proofs.Assignability.Totality

/-!
# Comparing types without declarations

Where every named type stands for itself, a comparison only goes from types to their parts. So it always
comes to a verdict (`compareWithin_unknown_total`), at any depth that the sizes of the two types leave room
for, and a deeper search comes to the same one. The assumptions play no role: named types are compared
as they are, so a comparison decides assignability whatever the texts of the types.

## Key results

- `compareWithin_unknown_total`: a comparison without declarations gives a verdict
- `compareUnresolved_holds_iff`: the verdict is positive for assignable types and only for those
-/

namespace Ascribe

open Assignability

namespace Ty

variable {t : Ty} {body : InterfaceBody Ty}

theorem size_lt_of_mem_methods (h : t.shape = .interface body) :
    ∀ m ∈ body.methods, ∀ x ∈ m.signature.parts, x.size < t.size := by
  intro m hm x hx
  refine size_lt_of_mem_parts ?_
  rw [h]
  exact List.mem_append_left _ (List.mem_flatMap.mpr ⟨m, hm, hx⟩)

theorem size_lt_of_mem_supers (h : t.shape = .interface body) : ∀ u ∈ body.supers, u.size < t.size := by
  intro u hu
  refine size_lt_of_mem_parts ?_
  rw [h]
  exact List.mem_append_right _ hu

end Ty

/-! ## Named types that stand for themselves -/

namespace Unfolding

/-- Every named type stands for itself. -/
def itself : Unfolding :=
  fun r => .of (.ref r)

theorem itself_respects : itself.Respects :=
  fun _ _ h => h

theorem declared_itself (t : Ty) : (itself.declared t).2 = t := by
  rw [declared, maxAliasChain, follow]
  cases hr : t.reference? with
  | none => rfl
  | some r =>
    have hself : itself r == t := by
      rw [Ty.beq_eq_same, Ty.same_iff_erase_eq, Ty.erase_eq, Ty.erase_eq t, Ty.reference?_eq_some.mp hr]
      rfl
    dsimp only
    rw [if_pos hself]

end Unfolding

theorem Resolver.unknown_follows : unknown.Follows .itself :=
  fun _ => .pure rfl

namespace Resolver

/-- `unknown` lets a named type stand for itself, so following named types leads to no larger ones. -/
theorem unknown_totalOn (bound : Nat) :
    unknown.TotalOn (fun _ => True) (·.size < bound) fun m => ∀ x ∈ m.signature.parts, x.size < bound where
  resolve := by
    intro t r hshape ht
    have hsize : (Ty.of (.ref r)).size = t.size := by
      rw [Ty.size_eq, Ty.size_eq t, hshape]
      rfl
    exact .pure (hsize ▸ ht)
  methods hbody ht m hm x hx := (Ty.size_lt_of_mem_methods hbody m hm x hx).trans ht
  supers hbody ht u hu := (Ty.size_lt_of_mem_supers hbody u hu).trans ht

/-- `unknown.interfaceMethods` are made of smaller types, inherited ones included. -/
theorem unknown_interfaceMethods_total {t : Ty} {body : InterfaceBody Ty} (h : t.shape = .interface body) :
    (unknown.interfaceMethods body).TotalUnder (fun _ => True) fun found =>
      ∀ m ∈ found, ∀ x ∈ m.signature.parts, x.size < t.size :=
  interfaceMethods_total (unknown_totalOn t.size).walks (Ty.size_lt_of_mem_methods h) (Ty.size_lt_of_mem_supers h)

theorem unknown_declared_total (t : Ty) :
    (unknown.declared t).TotalUnder (fun _ => True) fun found => found = Unfolding.itself.declared t :=
  ((follow_total (unknown_totalOn _) _ _ (Nat.lt_succ_self t.size)).and (unknown_follows.declared t)).mono
    fun _ => And.right

end Resolver

/-- `Resolved` under `Unfolding.itself` is `same` if one of the types is named. -/
theorem resolved_itself {R : Ty → Ty → Prop} {a e : Ty} (h : (∃ r, a.shape = .ref r) ∨ ∃ r, e.shape = .ref r) :
    Resolved R (Unfolding.itself.declared a) (Unfolding.itself.declared e) ↔ a.same e = true := by
  unfold Resolved
  simp only [Unfolding.declared_itself]
  split <;> simp_all

theorem Comparer.named_unknown_total {c : Comparer Unit} (hc : c.resolve = .unknown) {assumed : Assumptions} {a e : Ty}
    (h : (∃ r, a.shape = .ref r) ∨ ∃ r, e.shape = .ref r) :
    (c.named assumed a e).TotalUnder (fun _ => True) fun _ => True := by
  unfold named
  dsimp only
  split
  · exact .pure trivial
  unfold resolvedTypes
  rw [hc]
  refine .bind (Resolver.unknown_declared_total a) fun (d, x) hx => ?_
  refine .bind (Resolver.unknown_declared_total e) fun (d', y) hy => ?_
  obtain rfl : x = a := by rw [← Unfolding.declared_itself a, ← hx]
  obtain rfl : y = e := by rw [← Unfolding.declared_itself e, ← hy]
  -- one of the types is still named, so they only have to be the same
  dsimp only
  split
  · simp_all
  · split <;> exact .pure trivial
  · split <;> exact .pure trivial
  · simp_all

/-! ## Verdicts -/

/-- `compareWithin .unknown` gives a verdict if it may go as deep as the sizes of the types. -/
theorem compareWithin_unknown_total {depth : Nat} {assumed : Assumptions} {a e : Ty}
    (h : a.size + e.size ≤ depth) :
    (compareWithin .unknown depth assumed a e).TotalUnder (fun _ => True) fun _ => True := by
  induction depth generalizing assumed a e with
  | zero =>
    have := a.size_pos
    omega
  | succ depth ih =>
    -- every question is about smaller types
    have hask {assumed : Assumptions} {x y : Ty} (hsize : x.size + y.size ≤ depth) :
        (compareWithin .unknown depth assumed x y).Ensures True (fun _ => True) fun _ => True :=
      Search.ensures_true_iff.mpr (ih hsize)
    have hanswers : Comparer.Answers True (fun _ => True) ⟨.unknown, compareWithin .unknown depth⟩ assumed a e
        (·.size < a.size) (·.size < e.size) :=
      { left := fun hx => hask (by omega)
        right := fun hy => hask (by omega)
        both := fun hx hy => hask (by omega)
        flipped := fun hx hy => hask (by omega)
        actualParts := fun x hx => Ty.size_lt_of_mem_parts hx
        expectedParts := fun y hy => Ty.size_lt_of_mem_parts hy
        actualMethods := fun hbody => Search.ensures_true_iff.mpr (Resolver.unknown_interfaceMethods_total hbody)
        expectedMethods := fun hbody => Search.ensures_true_iff.mpr (Resolver.unknown_interfaceMethods_total hbody) }
    apply Search.ensures_true_iff.mp
    apply Comparer.step_ensures hanswers
    exact fun hnamed => Search.ensures_true_iff.mpr (Comparer.named_unknown_total rfl hnamed)

/-- `compareWithin .unknown` accepts exactly what is `Assignable .itself`, whatever its depth. -/
theorem compareWithin_unknown_judges (depth : Nat) (a e : Ty) :
    Judges (Assignable .itself a e) (Assignable .itself a e) (compareWithin .unknown depth [] a e) := by
  induction depth generalizing a e with
  | zero => exact .exhausted
  | succ depth ih =>
    rw [compareWithin, ← rule_iff_assignable]
    cases hname : Comparer.byName a e with
    | true =>
      -- nothing is assumed, and what is found for the named types has to be the same
      have hanything (x y : Ty) : Judges False True (compareWithin .unknown depth [(a.text, e.text)] x y) :=
        fun _ _ _ _ => ⟨nofun, fun _ => trivial⟩
      have hnamed := Comparer.named_judges (c := ⟨.unknown, compareWithin .unknown depth⟩)
        Resolver.unknown_follows hanything
      rw [Comparer.rule_of_byName hname, Comparer.step_of_byName hname]
      simp only [resolved_itself (Comparer.named_of_byName hname)] at hnamed ⊢
      exact hnamed.mono id (by simp)
    | false => exact Comparer.step_judges_of_not_byName ih Resolver.unknown_follows hname

/-- `compareUnresolved` gives the verdict of `compareWithin` at the sizes of the types. -/
theorem compareUnresolved_eq {a e : Ty} {v : Verdict}
    (hv : (compareWithin .unknown (a.size + e.size) [] a e).run () = .ok (v, ())) :
    compareUnresolved a e = .ok v := by
  -- the usual depth gives this verdict or is not enough, and then the sizes are used
  have hlimit : (compareWithin .unknown depthLimit [] a e).run () = .error .tooDeep ∨
      (compareWithin .unknown depthLimit [] a e).run () = .ok (v, ()) := by
    rcases Nat.le_total depthLimit (a.size + e.size) with hle | hle
    · rcases compareWithin_deepens .unknown hle [] a e () with hdeep | hsame
      · exact .inl hdeep
      · exact .inr (hsame ▸ hv)
    · rcases compareWithin_deepens .unknown hle [] a e () with hdeep | hsame
      · rw [hv] at hdeep
        exact nomatch hdeep
      · exact .inr (hsame.trans hv)
  have hrun (depth : Nat) : ((Comparer.ofResolver .unknown depth).compare [] a e).run' () =
      Prod.fst <$> (compareWithin .unknown depth [] a e).run () :=
    rfl
  unfold compareUnresolved askUnresolved
  rw [hrun, hrun]
  rcases hlimit with hdeep | hok
  · rw [hdeep, hv]
    rfl
  · rw [hok]
    rfl

/-- `compareUnresolved` decides `Assignable .itself`: it gives a verdict, which is positive exactly for the pairs of the
greatest relation closed under the rules. -/
theorem compareUnresolved_holds_iff (a e : Ty) :
    ∃ v, compareUnresolved a e = .ok v ∧ (v.holds = true ↔ Assignable .itself a e) := by
  obtain ⟨v, ⟨⟩, hv, -, -⟩ := compareWithin_unknown_total (Nat.le_refl (a.size + e.size)) () trivial
  have hjudges := compareWithin_unknown_judges _ a e () v () hv
  exact ⟨v, compareUnresolved_eq hv, hjudges.2, hjudges.1⟩

/-- `compareUnresolved` accepts two types exactly if one is `Assignable .itself` to the other. -/
theorem compareUnresolved_accepts_iff {a e : Ty} :
    compareUnresolved a e = .ok (.ok ()) ↔ Assignable .itself a e := by
  obtain ⟨v, hv, hholds⟩ := compareUnresolved_holds_iff a e
  rw [hv, ← hholds, Except.ok.injEq]
  cases v <;> simp [Verdict.holds]

end Ascribe
