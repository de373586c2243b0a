import Ascribe.Proofs.Assignability.Casts
import Ascribe.Proofs.Checker.Branches

/-!
# Casts back along assignability on a checker

Where a checker has found that one type is assignable to another, it does not call the cast back unrelated
(`Checker.castSafety_back`), unless replacing named types by what they stand for matters: `Cell<never>` is assignable to
`Cell<u8>` because its argument is, but if `Cell` is a class, what the two stand for is not related
(`cells_unrelated`). If `Cell` is a struct, a variant or an interface that mentions its parameter at places only that
assignability goes through, then it is (`Unfolding.WidensByArguments`); and so are a constructor and its variant.
-/

namespace Ascribe

open Assignability

namespace Unfolding

/-- A test for what `CastsBack` asks apart from the arguments, by a comparison to a given depth. -/
def castsBack (f : Unfolding) (depth : Nat) (a b : Ty) : Bool :=
  let x := f.meaning a
  (!b.isNullable || a.reference?.isNone || !x.isNullable && (b.core.reference?.isNone ||
      Comparer.byName x b.core && x.reference?.isNone && (f.meaning b.core).reference?.isNone)) &&
    ((compareWatched (refuseNamesakes [(a, b.core)]) f.resolver depth [] x (f.meaning b)).run ()).toOption.isSome

theorem castsBack_of_test {f : Unfolding} {depth : Nat} {a b : Ty} (h : f.castsBack depth a b = true)
    (harguments : Comparer.byArguments a b.core = true → a.same b.core = false → f.WidensByArguments a b.core) :
    f.CastsBack a b := by
  simp only [castsBack, Bool.and_eq_true, Bool.or_eq_true, Bool.not_eq_true', Option.isNone_iff_eq_none] at h
  obtain ⟨hnullable, hends⟩ := h
  have hasked (hb : b.isNullable = true) (ha : a.reference?.isSome = true) :
      ¬ (b.isNullable = false ∨ a.reference? = none) := by
    rintro (hb' | ha')
    · cases hb.symm.trans hb'
    · simp [ha'] at ha
  refine ⟨harguments, fun hb ha => (hnullable.resolve_left (hasked hb ha)).1, fun hb ha hnamed => ?_, ?_⟩
  · rcases (hnullable.resolve_left (hasked hb ha)).2 with hunnamed | ⟨⟨hname, hx⟩, hy⟩
    · simp [hunnamed] at hnamed
    · exact ⟨hname, hx, hy⟩
  · obtain ⟨⟨v, ⟨⟩⟩, hrun⟩ := Option.isSome_iff_exists.mp hends
    exact ⟨depth, v, toOption_eq_some.mp hrun⟩

end Unfolding

namespace Checker

variable {p : Tree} {c c₁ later c₂ : Checker}

/-- Comparing over `lookup` is comparing over the resolver of the unfolding `kept`. -/
theorem lookup_forgets (c : Checker) (s : Settings) (depth : Nat) :
    (Comparer.ofResolver c.lookup depth).InStep (.forgets s) (.ofResolver c.kept.resolver depth) := by
  have hresolve : c.lookup.InStep (.forgets s) c.kept.resolver := by
    intro r
    unfold lookup Unfolding.resolver kept
    split
    · next hkept =>
      rw [hkept]
      exact (Lockstep.forgets s).pure _
    · intro _ _ _ _ hrun
      cases hrun
  refine ⟨hresolve, fun assumed a e => ?_⟩
  have hcompare := compareWatched_rel (fun _ _ => (Lockstep.forgets s).pure ()) hresolve depth assumed a e
  rwa [compareWatched_pure, compareWatched_pure] at hcompare

/-- Whatever an idle checker has been asked before, if it finds that `a` is assignable to `b` then it does not call a
cast of `b` to `a` unrelated, then and after any further questions. Something is asked of the types only where the cast
compares others than `a` and `b` (`Unfolding.comparesOthers`): what they stand for must differ at places that
assignability goes through, and comparing it must end. -/
theorem castSafety_back (hidle : c.memo.Idle) (hdepth : 0 < c.settings.maxReferenceDepth) {a b : Ty}
    (hassignable : ((firmFor p c.settings).compare [] a b).run c = .ok (.ok (), c₁)) (hlater : Asked c₁ later)
    {k : CastSafety} (hcast : ((firmFor p c.settings).comparer.castSafety b a).run later = .ok (k, c₂))
    (hback : c₂.kept.comparesOthers a b = true → c₂.kept.CastsBack a b) :
    (compare p a b).run c = .ok (.ok (), c₁) ∧ (castSafety p b a).run later = .ok (k, c₂) ∧
      (k = .safe ∨ k = .unchecked) := by
  have hready : c.Ready := ⟨hidle, hdepth⟩
  have hreplays := c₂.lookups_replays (p := p) (questionDepth p c.settings)
  obtain ⟨hgrows, haccepted⟩ := hreplays.compare [] a b c (.ok ()) c₁ hready hassignable
  have hgrowsLater := hgrows.trans hlater.grows
  obtain ⟨hgrows₂, hlookup⟩ := hreplays.comparer.castSafety b a later k c₂ (hready.grows hgrowsLater) hcast
  -- both answers can be found again by looking named types up
  replace haccepted := haccepted (hlater.grows.trans hgrows₂) c
  replace hlookup := hlookup (.refl c₂) c
  rw [lookups_compare] at haccepted
  rw [lookups_comparer] at hlookup
  have hforgets := c₂.lookup_forgets c.settings (questionDepth p c.settings)
  have haccepts : c₂.kept.Accepts a b := ⟨_, (hforgets.compare [] a b c (.ok ()) c rfl haccepted).2⟩
  have hrelated : k ≠ .unrelated :=
    Unfolding.castSafety_of_accepts c₂.kept_respects haccepts hback (hforgets.castSafety b a c k c rfl hlookup).2
  refine ⟨(answers_refines_firm _).compare [] a b c (.ok ()) c₁ hassignable, ?_, ?_⟩
  · have hanswers := (answers_refines_firm _).comparer.castSafety b a later k c₂ hcast
    rw [← hgrowsLater.settings] at hanswers
    exact hanswers
  · cases k with
    | safe => exact .inl rfl
    | unchecked => exact .inr rfl
    | unrelated => exact absurd rfl hrelated

end Checker

/-- An interface `type Figure = interface { area: fn() -> u32, copy: fn() -> Figure }` and a class
`type Circle = class : Figure { fn area() -> u32, fn copy() -> Circle }`. -/
def figures : Tree where
  nodes := #[
    { form := .typeDecl { name := "Figure", definition := 5 }, parent := some 13 },
    { form := .primitive .u32, parent := some 2 },
    { form := .interfaceMethod { names := ["area"], result := some 1 }, parent := some 5 },
    { form := .reference { name := "Figure", target := some 0 } [], parent := some 4 },
    { form := .interfaceMethod { names := ["copy"], result := some 3 }, parent := some 5 },
    { form := .interfaceType [2, 4] [], parent := some 0 },
    { form := .typeDecl { name := "Circle", definition := 12 }, parent := some 13 },
    { form := .primitive .u32, parent := some 8 },
    { form := .method { names := ["area"], result := some 7 }, parent := some 12 },
    { form := .reference { name := "Circle", target := some 6 } [], parent := some 10 },
    { form := .method { names := ["copy"], result := some 9 }, parent := some 12 },
    { form := .reference { name := "Figure", target := some 0 } [], parent := some 12 },
    { form := .classType { methods := [8, 10], supers := [11] }, parent := some 6 },
    { form := .compilationUnit [0, 6] }]

/-- Ask whether `a` is assignable to `b`, and for a cast back; then look at what the checker has kept. -/
def castingBack (p : Tree) (a b : Ty) (test : Unfolding → Bool) : Infer Bool := do
  let q := Checker.firmFor p {}
  let v ← q.compare [] a b
  let k ← q.comparer.castSafety b a
  let c ← get
  return v.holds && k ≠ .safe && test c.kept

theorem run_castingBack {p : Tree} {a b : Ty} {test : Unfolding → Bool} {c c₂ : Checker}
    (h : (castingBack p a b test).run c = .ok (true, c₂)) :
    ∃ c₁ k, ((Checker.firmFor p {}).compare [] a b).run c = .ok (.ok (), c₁) ∧
      ((Checker.firmFor p {}).comparer.castSafety b a).run c₁ = .ok (k, c₂) ∧ k ≠ .safe ∧ test c₂.kept = true := by
  obtain ⟨v, c₁, hcompare, h⟩ := Search.run_bind_eq_ok.mp h
  obtain ⟨k, c₂', hcast, h⟩ := Search.run_bind_eq_ok.mp h
  obtain ⟨hfound, rfl⟩ := Prod.mk.inj (Except.ok.inj h)
  simp only [Bool.and_eq_true, decide_eq_true_eq] at hfound
  obtain ⟨⟨hholds, hk⟩, htest⟩ := hfound
  cases v with
  | error why => cases hholds
  | ok => exact ⟨c₁, k, hcompare, hcast, hk, htest⟩

/-- `Option` mentions its parameter at a place that assignability goes through. -/
theorem options.variant_widens {f : Unfolding} {given : Ty → Ty → Prop} {arg arg' : Ty} (h : given arg arg') :
    f.Widens given (variant arg) (variant arg') := by
  refine .variant rfl rfl rfl (by simp) (by simp) ?_
  simpa using .given h

/-- A class is assignable to a nullable interface that it is declared below; the type of `Option.Some(1u8)` to
`Option<u8>`; and so is `Option.None<never>`, whose argument is another one. The casts back are unchecked. -/
theorem figures_options_cast_back :
    (∃ c c', (Checker.compare figures (.reference 6 "Circle" []) (.nullable (.reference 0 "Figure" []))).run {} =
        .ok (.ok (), c) ∧
      (Checker.castSafety figures (.nullable (.reference 0 "Figure" [])) (.reference 6 "Circle" [])).run c =
        .ok (.unchecked, c')) ∧
    (∃ t c c₁ c₂, (Checker.typeOf options 10).run {} = .ok (t, c) ∧ t.text = "Option.Some<u8>" ∧
      (Checker.compare options t (.reference 6 "Option" [.prim .u8])).run c = .ok (.ok (), c₁) ∧
      (Checker.castSafety options (.reference 6 "Option" [.prim .u8]) t).run c₁ = .ok (.unchecked, c₂)) ∧
    ∃ c c', (Checker.compare options (options.constructor "None" .never) (.reference 6 "Option" [.prim .u8])).run {} =
        .ok (.ok (), c) ∧
      (Checker.castSafety options (.reference 6 "Option" [.prim .u8]) (options.constructor "None" .never)).run c =
        .ok (.unchecked, c') := by
  let option : Ty := .reference 6 "Option" [.prim .u8]
  refine ⟨?_, ?_, ?_⟩
  · let circle : Ty := .reference 6 "Circle" []
    let figure : Ty := .nullable (.reference 0 "Figure" [])
    obtain ⟨_, c', hrun, rfl⟩ := Search.exists_run_of_any (P := id)
      (x := castingBack figures circle figure (·.castsBack 10 circle figure)) (s := {}) (by decide +kernel)
    obtain ⟨c, k, hcompare, hcast, hk, htest⟩ := run_castingBack hrun
    obtain ⟨hassignable, hcast, hback⟩ := Checker.castSafety_back (c := {}) Memo.Idle.empty (by decide) hcompare .none
      hcast fun _ => Unfolding.castsBack_of_test htest fun hargs => absurd hargs (by decide +kernel)
    obtain rfl := hback.resolve_left hk
    exact ⟨c, c', hassignable, hcast⟩
  · let session : Infer (Ty × Bool) := do
      let t ← Checker.typeOf options 10
      let found ← castingBack options t option fun f => !f.comparesOthers t option
      return (t, found)
    obtain ⟨⟨t, found⟩, c₂, hrun, hfound⟩ := Search.exists_run_of_any (x := session) (s := {})
      (P := fun found => found.1.text == "Option.Some<u8>" && found.2) (by decide +kernel)
    obtain ⟨htext, rfl⟩ : t.text = "Option.Some<u8>" ∧ found = true := by simpa using hfound
    obtain ⟨_, c, htype, hrun⟩ := Search.run_bind_eq_ok.mp hrun
    obtain ⟨_, _, hback, hrun⟩ := Search.run_bind_eq_ok.mp hrun
    obtain ⟨hpair, rfl⟩ := Prod.mk.inj (Except.ok.inj hrun)
    obtain ⟨rfl, rfl⟩ := Prod.mk.inj hpair
    obtain ⟨c₁, k, hcompare, hcast, hk, htest⟩ := run_castingBack hback
    have hask : ((Query.typeOf 10).ask options).run {} = .ok ((), c) := by
      show (discard _ : Infer Unit).run _ = _
      rw [Search.run_discard, htype]
      rfl
    have hgrows := (Query.typeOf 10).ask_growing options {} () c hask
    have hsettings : c.settings = {} := hgrows.settings
    rw [← hsettings] at hcompare hcast
    obtain ⟨hassignable, hcast, hback⟩ := Checker.castSafety_back (Memo.Idle.empty.grows hgrows.memo)
      (by rw [hsettings]; decide) hcompare .none hcast fun hothers => by simp [option, hothers] at htest
    obtain rfl := hback.resolve_left hk
    exact ⟨_, c, c₁, _, htype, htext, hassignable, hcast⟩
  · let none := options.constructor "None" .never
    obtain ⟨_, c', hrun, rfl⟩ := Search.exists_run_of_any (P := id) (s := {})
      (x := castingBack options none option fun f => f.castsBack 10 none option && (f.meaning option).isVariant &&
        (f.meaning option).same (options.variant (.prim .u8))) (by decide +kernel)
    obtain ⟨c, k, hcompare, hcast, hk, htest⟩ := run_castingBack hrun
    obtain ⟨⟨htest, hvariant⟩, hoption⟩ := by simpa only [Bool.and_eq_true] using htest
    have hwidens : c'.kept.WidensByArguments none option :=
      ⟨hvariant, rfl, .upTo (Ty.same_refl _) hoption (options.variant_widens List.mem_cons_self)⟩
    obtain ⟨hassignable, hcast, hback⟩ := Checker.castSafety_back (c := {}) Memo.Idle.empty (by decide) hcompare .none
      hcast fun _ => Unfolding.castsBack_of_test htest fun _ _ => hwidens
    obtain rfl := hback.resolve_left hk
    exact ⟨c, c', hassignable, hcast⟩

/-- A generic class `type Cell<T> = class { value: T }`. -/
def cells : Tree where
  nodes := #[
    { form := .genericParam "T" none, parent := some 4 },
    { form := .reference { name := "T", target := some 0 } [], parent := some 2 },
    { form := .attribute { name := "value", type := 1 }, parent := some 3 },
    { form := .classType { attributes := [2] }, parent := some 4 },
    { form := .typeDecl { name := "Cell", generics := [0], definition := 3 }, parent := some 5 },
    { form := .compilationUnit [4] }]

/-- `cells` declares a class that is assignable to itself at another argument, and the cast back is called unrelated. -/
theorem cells_unrelated :
    ∃ c c', (Checker.compare cells (.reference 4 "Cell" [.never]) (.reference 4 "Cell" [.prim .u8])).run {} =
        .ok (.ok (), c) ∧
      (Checker.castSafety cells (.reference 4 "Cell" [.prim .u8]) (.reference 4 "Cell" [.never])).run c =
        .ok (.unrelated, c') := by
  let empty : Ty := .reference 4 "Cell" [.never]
  let full : Ty := .reference 4 "Cell" [.prim .u8]
  let session : Infer (Bool × CastSafety) := do
    let v ← Checker.compare cells empty full
    return (v.holds, ← Checker.castSafety cells full empty)
  obtain ⟨found, c₂, hrun, hfound⟩ := Search.exists_run_of_any (x := session) (s := {})
    (P := fun found => found.1 && found.2 = .unrelated) (by decide +kernel)
  obtain ⟨v, c, hcompare, hrun⟩ := Search.run_bind_eq_ok.mp hrun
  obtain ⟨k, c', hcast, hrun⟩ := Search.run_bind_eq_ok.mp hrun
  obtain ⟨rfl, rfl⟩ := Prod.mk.inj (Except.ok.inj hrun)
  simp only [Bool.and_eq_true, decide_eq_true_eq] at hfound
  obtain ⟨hholds, rfl⟩ := hfound
  cases v with
  | error why => cases hholds
  | ok => exact ⟨c, c', hcompare, hcast⟩

end Ascribe
