import Ascribe.Proofs.Assignability.Widening

/-!
# Casts back along assignability

If a type is assignable to another one, a cast back is not unrelated. A cast finds this out by asking the question of
assignability once more, and not about the same types: named types have been replaced by what they stand for. Two
named types of one declaration are assignable argument by argument, and so is a constructor to a name of its variant.
What they stand for is then assignable as well if it only differs at places that assignability goes through
(`Unfolding.WidensByArguments`), which attributes of classes are not. A named type that is assignable to the base of a
nullable type has been compared with what the base stands for, and afterwards what it stands for is compared with the
base. `Unfolding.CastsBack` says that these differences do not matter.

## Key results

- `Unfolding.CastsBack.accepts`: what two types stand for is accepted if the types are
- `Unfolding.castSafety_of_accepts`: a cast back along what is accepted is not unrelated
-/

namespace Ascribe

open Assignability

variable {a b e : Ty}

/-- The arguments of a named type or of a constructor. -/
def Ty.arguments (t : Ty) : List Ty :=
  match t.shape with
  | .ref r => r.args
  | .constructed c => c.args
  | _ => []

/-- A type with a `reference?` is none of those that are told apart before names are looked at. -/
theorem Ty.plain_of_named {t : Ty} (h : t.reference?.isSome = true) :
    t.isNever = false ∧ t.isError = false ∧ t.isAny = false ∧ t.isNull = false ∧ t.isNullable = false := by
  obtain ⟨r, href⟩ := Option.isSome_iff_exists.mp h
  have hshape : t.shape = .ref r := Ty.reference?_eq_some.mp href
  simp [isNever, isError, problem?, isAny, isNull, isNullable, isPrimitive, primitive?, hshape]

/-! ## Casts that relate nothing -/

namespace Comparer

/-- `castSafety` is `unrelated` only if what the target stands for is not `assignable` to what the source stands for. -/
theorem refused_of_unrelated {σ : Type} {c : Comparer σ} {s s' : σ} {source target : Ty}
    (h : (c.castSafety source target).run s = .ok (.unrelated, s')) :
    ∃ s₁ x s₂ y s₃ s₄, (c.resolve.target source).run s₁ = .ok (x, s₂) ∧
      (c.resolve.target target).run s₂ = .ok (y, s₃) ∧ (c.assignable y x).run s₄ = .ok (false, s') := by
  unfold castSafety at h
  obtain ⟨isSafe, s₁, -, h⟩ := Search.run_bind_eq_ok.mp h
  split at h
  · cases (Search.run_pure_eq_ok.mp h).1
  obtain ⟨x, s₂, hx, h⟩ := Search.run_bind_eq_ok.mp h
  obtain ⟨y, s₃, hy, h⟩ := Search.run_bind_eq_ok.mp h
  split at h
  · cases (Search.run_pure_eq_ok.mp h).1
  obtain ⟨unwraps, s₄, -, h⟩ := Search.run_bind_eq_ok.mp h
  split at h
  · cases (Search.run_pure_eq_ok.mp h).1
  obtain ⟨isBelow, s₅, hback, h⟩ := Search.run_bind_eq_ok.mp h
  split at h
  · cases (Search.run_pure_eq_ok.mp h).1
  · next hfalse =>
    obtain ⟨-, rfl⟩ := Search.run_pure_eq_ok.mp h
    rw [Bool.not_eq_true] at hfalse
    exact ⟨s₁, x, s₂, y, s₃, s₄, hx, hy, hfalse ▸ hback⟩

/-- Whether two types are compared by their arguments: both are named by one declaration, or one is a constructor of
the variant that the other one names. -/
def byArguments (a e : Ty) : Bool :=
  e.reference?.any fun r => a.reference?.any (·.decl = r.decl) ||
    a.constructed?.any fun c => c.decl = some r.decl && c.args.length = r.args.length

/-- A pair with a named type is compared `byName`, `byArguments` or not at all, unless one of them is nullable. -/
theorem byName_or_byArguments (hnamed : a.reference?.isSome = true ∨ e.reference?.isSome = true)
    (ha : a.isNullable = false) (he : e.isNullable = false) :
    byName a e = true ∨ byArguments a e = true ∨ a.same e = true ∨ a.isNever = true ∨ a.isError = true ∨
      e.isError = true ∨ e.isAny = true := by
  have hsome : (a.reference?.isNone && e.reference?.isNone) = false := by
    rcases hnamed with h | h <;> simp [Option.isNone_eq_false_iff.mpr h]
  cases hspecial : isSpecial a e with
  | false => exact .inl (by simp [byName, hspecial, hsome])
  | true =>
    have hrest : (a.same e || a.isNever || a.isError || e.isError || e.isAny || a.isNullable || e.isNullable ||
      byArguments a e) = true := hspecial
    simp only [ha, he, Bool.or_false, Bool.or_eq_true] at hrest
    tauto

end Comparer

/-! ## What two types stand for -/

/-- `Resolved` relates types that `R` relates or that are the same. -/
theorem Assignability.Resolved.same_or {R : Ty → Ty → Prop} {x y : Option NodeId × Ty} (h : Resolved R x y) :
    x.2.same y.2 = true ∨ R x.2 y.2 := by
  revert h
  unfold Resolved
  split
  · split
    · exact fun h => .inl h.2
    · exact id
  · exact .inl
  · exact .inl
  · exact id

namespace Unfolding

variable {f : Unfolding}

/-- What `e` stands for is what `a` stands for, widened at their arguments. If `a` is a constructor, then `e` stands for
its variant, widened at the arguments. -/
def WidensByArguments (f : Unfolding) (a e : Ty) : Prop :=
  match a.shape with
  | .constructed c =>
    (f.meaning e).isVariant = true ∧ (f.meaning c.variant).reference? = none ∧
      f.Widens (fun x y => (x, y) ∈ a.arguments.zip e.arguments) (f.meaning c.variant) (f.meaning e)
  | _ => f.Widens (fun x y => (x, y) ∈ a.arguments.zip e.arguments) (f.meaning a) (f.meaning e)

/-- Nothing stands in the way of a cast back from `b` to `a`: if `a` is accepted for `b`, then what `a` stands for is
accepted for what `b` stands for (`CastsBack.accepts`). -/
structure CastsBack (f : Unfolding) (a b : Ty) : Prop where
  /-- If they are compared by their arguments and are not the same, then what they stand for differs at places only that
  assignability goes through. -/
  arguments : Comparer.byArguments a b.core = true → a.same b.core = false → f.WidensByArguments a b.core
  /-- If `a` is named and `b` nullable, then `a` does not stand for a nullable type. -/
  notNullable : b.isNullable = true → a.reference?.isSome = true → (f.meaning a).isNullable = false
  /-- If `a` is named and `b` is nullable over a named type, then what `a` stands for is compared with the latter by
  what that stands for. -/
  base : b.isNullable = true → a.reference?.isSome = true → b.core.reference?.isSome = true →
    Comparer.byName (f.meaning a) b.core = true ∧ (f.meaning a).reference? = none ∧
      (f.meaning b.core).reference? = none
  ends : f.EndsApart [(a, b.core)] (f.meaning a) (f.meaning b)

/-- Whether a cast of `b` back to `a` compares other types than those that were found to be assignable: one of them is
named, they are not the same, and `a` is no constructor of the variant that `b` stands for. -/
def comparesOthers (f : Unfolding) (a b : Ty) : Bool :=
  (a.reference?.isSome || b.reference?.isSome) && !a.same b &&
    !((f.meaning b).isVariant && a.constructed?.any (·.variant.same (f.meaning b)))

/-- `Accepts` holds of a constructor and its variant. -/
theorem Accepts.of_constructed {c : Constructed Ty} (ha : a.shape = .constructed c) (he : e.isVariant = true)
    (hvariant : c.variant.same e = true) : f.Accepts a e := by
  unfold Ty.isVariant at he
  split at he
  · next cases hshape =>
    refine ⟨2, ?_⟩
    rw [AcceptsAt, compareWithin, Comparer.step]
    split
    · rfl
    split
    · rfl
    simp only [ha, hshape, Comparer.general, Ty.reference?, Option.isNone_none, Bool.and_self, if_true,
      Comparer.structural]
    rw [compareWithin, Comparer.step, Ty.beq_eq_same, if_pos hvariant]
    rfl
  · cases he

/-- `Accepts` carries over to the `meaning` of both types if a cast back does not `comparesOthers`. -/
theorem Accepts.meanings_of_plain (hf : f.Respects) (h : f.Accepts a b) (hplain : f.comparesOthers a b = false) :
    f.Accepts (f.meaning a) (f.meaning b) := by
  simp only [comparesOthers, Bool.and_eq_false_iff, Bool.or_eq_false_iff, Bool.not_eq_false', Bool.and_eq_true,
    Option.isSome_eq_false_iff, Option.isNone_iff_eq_none] at hplain
  rcases hplain with (⟨ha, hb⟩ | hsame) | ⟨hvariant, hconstructed⟩
  · rwa [meaning_of_unnamed ha, meaning_of_unnamed hb]
  · exact .of_same (meaning_congr hf hsame)
  · obtain ⟨c, hc, hsame⟩ := (Option.any_eq_true _ _).mp hconstructed
    have ha : a.shape = .constructed c := Ty.constructed?_eq_some.mp hc
    rw [meaning_of_unnamed (by simp [Ty.reference?, ha])]
    exact .of_constructed ha hvariant hsame

/-- A nullable type is not in `Accepts` for a named one. -/
theorem Accepts.notNullable (h : f.Accepts a e) (hnamed : a.reference?.isSome = true ∨ e.reference?.isSome = true) :
    a.isNullable = false := by
  rcases hnamed with ha | he
  · exact (Ty.plain_of_named ha).2.2.2.2
  · obtain ⟨r, href⟩ := Option.isSome_iff_exists.mp he
    by_contra hnullable
    rw [Bool.not_eq_false] at hnullable
    have hname : Comparer.byName a e = false := by simp [Comparer.byName, Comparer.isSpecial, hnullable]
    have hrule := (rule_to_named_iff (Ty.reference?_eq_some.mp href)).mp (h.rule hname)
    unfold Ty.isNullable at hnullable
    split at hrule <;> simp_all

/-- The `arguments` of accepted types that are compared `byArguments` fit, unless the types are the same. -/
theorem Accepts.fits_arguments (h : f.Accepts a e) (hargs : Comparer.byArguments a e = true)
    (hsame : a.same e = false) :
    List.Forall₂ (Fits f.Accepts) a.arguments e.arguments := by
  have hname : Comparer.byName a e = false := by
    have hspecial : Comparer.isSpecial a e = true := by
      unfold Comparer.isSpecial
      exact Bool.or_eq_true_iff.mpr (.inr hargs)
    simp [Comparer.byName, hspecial]
  obtain ⟨r, href, hrest⟩ := (Option.any_eq_true _ _).mp hargs
  have he : e.shape = .ref r := Ty.reference?_eq_some.mp href
  have hrule := (rule_to_named_iff he).mp (h.rule hname)
  rcases Bool.or_eq_true_iff.mp hrest with hnamed | hconstructed
  · obtain ⟨r', href', hdecl⟩ := (Option.any_eq_true _ _).mp hnamed
    have ha : a.shape = .ref r' := Ty.reference?_eq_some.mp href'
    rw [ha] at hrule
    dsimp only at hrule
    rw [if_pos (of_decide_eq_true hdecl), hsame] at hrule
    rw [Ty.arguments, Ty.arguments, ha, he]
    exact hrule.resolve_left Bool.false_ne_true
  · obtain ⟨c, hc, hfits⟩ := (Option.any_eq_true _ _).mp hconstructed
    have ha : a.shape = .constructed c := Ty.constructed?_eq_some.mp hc
    rw [ha] at hrule
    dsimp only at hrule
    rw [if_pos (by simpa using hfits)] at hrule
    rw [Ty.arguments, Ty.arguments, ha, he]
    exact hrule

/-- The `meaning` of a type is `Accepted` for that of another one if the types are, and `WidensByArguments` holds where
they are compared `byArguments`. -/
theorem WidensByArguments.accepted (hf : f.Respects) (hwidens : f.WidensByArguments a e) (h : f.Accepts a e)
    (hargs : Comparer.byArguments a e = true) (hsame : a.same e = false) :
    Accepted (σ := Unit) (refuseNamesakes [(a, e)]) f.resolver (f.meaning a) (f.meaning e) := by
  have hclosed := accepted_closed (f := f) (σ := Unit) (refuseNamesakes [(a, e)])
  have hpairs : ∀ p ∈ [(a, e)], f.Accepts p.1 p.2 := by simpa using h
  have hgiven (x y : Ty) (hxy : (x, y) ∈ a.arguments.zip e.arguments) :
      Fits (Accepted (σ := Unit) (refuseNamesakes [(a, e)]) f.resolver) x y :=
    ((List.forall₂_iff_zip.mp (h.fits_arguments hargs hsame)).2 hxy).mono fun _ _ haccepts =>
      haccepts.accepted hf hpairs
  unfold WidensByArguments at hwidens
  split at hwidens
  · next c ha =>
    -- a constructor is compared with a variant through its own
    obtain ⟨hvariant, hunnamed, hwidens⟩ := hwidens
    have hself : a.reference? = none := by simp [Ty.reference?, ha]
    rw [meaning_of_unnamed hself]
    unfold Ty.isVariant at hvariant
    split at hvariant
    · next cases he =>
      have he' : (f.meaning e).reference? = none := by simp [Ty.reference?, he]
      have he'' : (f.meaning e).isNullable = false := by simp [Ty.isNullable, he]
      refine hclosed.of_structural hself he' (by simp [Ty.isNullable, ha]) he'' ?_
      rw [Structural, ha, he]
      exact hclosed.of_meaning hunnamed he' he'' (hclosed.of_fits (hwidens.fits hclosed (accepted_erase hf _) hgiven))
    · cases hvariant
  · exact hclosed.of_fits (hwidens.fits hclosed (accepted_erase hf _) hgiven)

/-- The `meaning` of a type is `Accepted` for that of a type it is accepted for, under all assumptions. -/
theorem Accepts.accepted_meanings (hf : f.Respects) (h : f.Accepts a e)
    (hnamed : a.reference?.isSome = true ∨ e.reference?.isSome = true) (he : e.isNullable = false)
    (harguments : Comparer.byArguments a e = true → a.same e = false → f.WidensByArguments a e) :
    Accepted (σ := Unit) (refuseNamesakes [(a, e)]) f.resolver (f.meaning a) (f.meaning e) := by
  have hclosed := accepted_closed (f := f) (σ := Unit) (refuseNamesakes [(a, e)])
  have hpairs : ∀ p ∈ [(a, e)], f.Accepts p.1 p.2 := by simpa using h
  have hself {t : Ty} (ht : t.isNever = true ∨ t.isError = true ∨ t.isAny = true) : f.meaning t = t := by
    apply meaning_of_unnamed
    by_contra hsome
    have hplain := Ty.plain_of_named (Option.isSome_iff_ne_none.mpr hsome)
    simp [hplain] at ht
  rcases Comparer.byName_or_byArguments hnamed (h.notNullable hnamed) he with
    hname | hargs | hsame | hnever | herror | herror | hany
  · -- what they stand for was accepted under the assumption of the pair, which is accepted by itself
    have hresolved := ((accepts_iff.mp h).resolved resolver_follows hname).resolve_left List.not_mem_nil
    rcases hresolved.same_or with hsame | hunder
    · exact hclosed.of_same hsame
    · exact accepted_of_assumed hf hpairs List.mem_cons_self hunder
  · cases hsame : a.same e with
    | true => exact hclosed.of_same (meaning_congr hf hsame)
    | false => exact (harguments hargs hsame).accepted hf h hargs hsame
  · exact hclosed.of_same (meaning_congr hf hsame)
  · rw [hself (.inl hnever)]
    exact hclosed.of_never hnever
  · rw [hself (.inr (.inl herror))]
    exact hclosed _ _ (.inr (.inr (.inl herror)))
  · rw [hself (.inr (.inl herror))]
    exact hclosed _ _ (.inr (.inr (.inr (.inl herror))))
  · rw [hself (.inr (.inr hany))]
    exact hclosed _ _ (.inr (.inr (.inr (.inr (.inl hany)))))

/-- `Accepts` carries over to the `meaning` of both types if the pair `CastsBack` wherever a cast back `comparesOthers`.
-/
theorem CastsBack.accepts (hf : f.Respects) (h : f.Accepts a b)
    (hback : f.comparesOthers a b = true → f.CastsBack a b) :
    f.Accepts (f.meaning a) (f.meaning b) := by
  cases hothers : f.comparesOthers a b with
  | false => exact h.meanings_of_plain hf hothers
  | true =>
    have hnamed : a.reference?.isSome = true ∨ b.reference?.isSome = true := by
      simp only [comparesOthers, Bool.and_eq_true, Bool.or_eq_true] at hothers
      exact hothers.1.1
    replace hback := hback hothers
    apply hback.ends.accepts
    cases hb : b.isNullable with
    | false =>
      -- `b` is its own core
      have hcore := Ty.core_of_not_nullable hb
      have harguments := hback.arguments
      rw [hcore] at harguments ⊢
      exact h.accepted_meanings hf hnamed hb harguments
    | true =>
      have hunnamed : b.reference? = none := by
        by_contra hsome
        have hplain := Ty.plain_of_named (Option.isSome_iff_ne_none.mpr hsome)
        simp [hb] at hplain
      have ha : a.reference?.isSome = true := by simpa [hunnamed] using hnamed
      obtain ⟨-, -, -, hnull, hnullable⟩ := Ty.plain_of_named ha
      have hmeanings :=
        (h.core hnull hnullable).accepted_meanings hf (.inl ha) (Ty.isNullable_core b) hback.arguments
      have hclosed := accepted_closed (f := f) (σ := Unit) (refuseNamesakes [(a, b.core)])
      rw [meaning_of_unnamed hunnamed]
      apply hclosed.of_core (hback.notNullable hb ha)
      cases href : b.core.reference? with
      | none => rwa [meaning_of_unnamed href] at hmeanings
      | some r =>
        -- the base is compared once more with what `a` stands for, by name
        obtain ⟨hname, hx, hy⟩ := hback.base hb ha (by simp [href])
        apply hclosed _ _ ((Comparer.rule_of_byName hname).mpr _)
        rw [declared_of_unnamed hx]
        exact resolved_unnamed hx hy (.inl rfl) hmeanings

/-! ## Casts over a fixed unfolding -/

/-- `castSafety` of a cast back to a type that is accepted for another one is not `unrelated`. -/
theorem castSafety_of_accepts (hf : f.Respects) (h : f.Accepts a b)
    (hback : f.comparesOthers a b = true → f.CastsBack a b) {depth : Nat} {k : CastSafety}
    (hrun : ((Comparer.ofResolver f.resolver depth).castSafety b a).run () = .ok (k, ())) : k ≠ .unrelated := by
  rintro rfl
  obtain ⟨_, x, _, y, _, _, hx, hy, hrefused⟩ := Comparer.refused_of_unrelated hrun
  change (Resolver.target f.resolver b).run _ = _ at hx
  change (Resolver.target f.resolver a).run _ = _ at hy
  rw [resolver_target] at hx hy
  obtain ⟨rfl, -⟩ := Search.run_pure_eq_ok.mp hx
  obtain ⟨rfl, -⟩ := Search.run_pure_eq_ok.mp hy
  rw [Comparer.assignable, Comparer.holds, ← bind_pure_comp] at hrefused
  obtain ⟨v, s, hcompare, hfalse⟩ := Search.run_bind_eq_ok.mp hrefused
  obtain ⟨hv, -⟩ := Search.run_pure_eq_ok.mp hfalse
  have hnone : ∀ p ∈ ([] : List (Ty × Ty)), f.Accepts p.1 p.2 := by simp
  have hholds := (CastsBack.accepts hf h hback).accepted hf hnone depth []
  rw [refuseNamesakes_nil, compareWatched_pure] at hholds
  exact Bool.false_ne_true (hv.trans (hholds _ v s hcompare))

end Unfolding

end Ascribe
