import Mathlib.Data.List.Zip
import Ascribe.Proofs.Assignability.Origins
import Ascribe.Proofs.Assignability.Unions

/-!
# Types that differ where arguments stand

Two instances of one declaration have the same layers and differ where its generic parameters stand. If the arguments of
the one fit those of the other, then the instances are assignable, provided that all of these places are ones that
`Rule` goes through. `Unfolding.Widens f given x y` says so: `y` is `x` with types replaced as `given` allows. The
replacement goes down to the elements of arrays and tuples, the fields of structs, the cases of variants, the members of
unions and joins, the methods of interfaces, the arguments of named types and constructors, and to results; and the
other way round to the parameters of signatures.

It does not go into classes, and does not make a nullable type out of one that is not. There the instances of a
declaration need not be assignable although the arguments fit.

## Key results

- `Unfolding.accepted_erase`: `Accepted` does not depend on back-references
- `Unfolding.Widens.fits`: types fit if the types fit that one of them is widened at
-/

namespace Ascribe

open Assignability

variable {x y : Ty}

/-! ## Back-references in comparisons that are watched -/

/-- `compareWatched` comes to the same verdict on types that are equal without their back-references, if it is watched
alike. -/
theorem Resolver.Respects.compareWatched_erase {σ : Type} {resolve : Resolver σ}
    (h : resolve.Respects ⟨Eq, eq_equivalence⟩) {watch : Ty → Ty → Search σ Unit}
    (hwatch : ∀ a e, watch a.erase e.erase = watch a e) (depth : Nat) (assumed : Assumptions) (a e : Ty) :
    Search.Alike ⟨Eq, eq_equivalence⟩ Verdict.wording (compareWatched watch resolve depth assumed a e)
      (compareWatched watch resolve depth assumed a.erase e.erase) := by
  induction depth generalizing assumed a e with
  | zero => exact .throw .tooDeep
  | succ depth ih =>
    -- the step is watched alike, and what it compares is compared at one depth less
    have hself : Search.Alike ⟨Eq, eq_equivalence⟩ id (watch a e) (watch a.erase e.erase) := by
      rw [hwatch]
      exact .refl _
    exact .bind hself fun _ _ _ => Comparer.Respects.step_erase ⟨h, ih⟩ assumed a e

theorem Verdict.holds_of_wording {v v' : Verdict} (h : v.wording = v'.wording) (hholds : v'.holds = true) :
    v.holds = true := by
  rcases Comparer.cases_of_wording h with ⟨rfl, -⟩ | ⟨why, why', -, rfl, -⟩
  · rfl
  · cases hholds

theorem refuseNamesakes_erase {σ : Type} (pairs : List (Ty × Ty)) (a e : Ty) :
    (refuseNamesakes pairs a.erase e.erase : Search σ Unit) = refuseNamesakes pairs a e := by
  unfold refuseNamesakes
  refine if_congr ?_ rfl rfl
  simp only [Ty.text_erase, Ty.same_iff_erase_eq, Ty.erase_erase]

namespace Unfolding

variable {f : Unfolding}

/-- `Unfolding.resolver` answers alike for names that are equal without their back-references. -/
theorem Respects.resolver (hf : f.Respects) (S : Setoid Unit) : (f.resolver : Resolver Unit).Respects S :=
  fun r r' href => .pure ((Ty.same_iff_erase_eq _ _).mp (hf r r' ((Ty.same_iff_erase_eq _ _).mpr href)))

/-- `Accepted` does not depend on back-references. -/
theorem accepted_erase (hf : f.Respects) (pairs : List (Ty × Ty)) (a e : Ty) :
    Accepted (σ := Unit) (refuseNamesakes pairs) f.resolver a.erase e.erase ↔
      Accepted (σ := Unit) (refuseNamesakes pairs) f.resolver a e := by
  have halike := (hf.resolver ⟨Eq, eq_equivalence⟩).compareWatched_erase (refuseNamesakes_erase pairs)
  constructor
  · exact fun h depth assumed =>
      (halike depth assumed a e).returns (fun _ _ => Verdict.holds_of_wording) (h depth assumed)
  · exact fun h depth assumed =>
      (halike depth assumed a e).symm.returns (fun _ _ => Verdict.holds_of_wording) (h depth assumed)

end Unfolding

/-! ## Layers that fit -/

/-- Whether a layer is compared by `Structural`, whatever its parts are. -/
def Shape.isComposite {α : Type} : Shape α → Bool
  | .prim _ | .nullable _ | .generic _ | .ref _ | .error _ => false
  | _ => true

namespace Assignability

variable {f : Unfolding} {R : Ty → Ty → Prop}

theorem forall₂_of_zip {α β : Type} {S : α → β → Prop} {as : List α} {bs : List β} (hlength : as.length = bs.length)
    (h : ∀ p ∈ as.zip bs, S p.1 p.2) : List.Forall₂ S as bs :=
  List.forall₂_iff_zip.mpr ⟨hlength, fun hp => h _ hp⟩

/-- Each element of the second list stands in `zip` beside one of the first. -/
theorem exists_zip_of_mem_right {α β : Type} {as : List α} {bs : List β} (hlength : as.length = bs.length) {b : β}
    (hb : b ∈ bs) : ∃ a, (a, b) ∈ as.zip bs := by
  obtain ⟨i, hi, rfl⟩ := List.mem_iff_getElem.mp hb
  refine ⟨as.get ⟨i, hlength ▸ hi⟩, List.mem_iff_getElem.mpr ⟨i, ?_, ?_⟩⟩
  · simp [hlength, hi]
  · simp

theorem exists_zip_of_mem_left {α β : Type} {as : List α} {bs : List β} (hlength : as.length = bs.length) {a : α}
    (ha : a ∈ as) : ∃ b, (a, b) ∈ as.zip bs := by
  obtain ⟨b, hb⟩ := exists_zip_of_mem_right hlength.symm ha
  refine ⟨b, ?_⟩
  rw [← List.zip_swap]
  exact List.mem_map.mpr ⟨_, hb, rfl⟩

/-- What stands beside each other in `zip` has the same name, if the names of the lists are equal. -/
theorem eq_of_mem_zip {α β : Type} {name : α → String} {name' : β → String} {as : List α} {bs : List β}
    (hnames : as.map name = bs.map name') {p : α × β} (hp : p ∈ as.zip bs) : name p.1 = name' p.2 := by
  induction as generalizing bs with
  | nil => cases hp
  | cons a as ih =>
    cases bs with
    | nil => cases hp
    | cons b bs =>
      obtain ⟨hname, hrest⟩ := List.cons.inj hnames
      rcases List.mem_cons.mp hp with rfl | hp
      · exact hname
      · exact ih hrest hp

theorem fieldsFit_of_zip {body body' : StructBody Ty} (hnames : body.fields.map (·.name) = body'.fields.map (·.name))
    (hdistinct : (body.fields.map (·.name)).Nodup)
    (h : ∀ p ∈ body.fields.zip body'.fields, R p.1.type p.2.type) : FieldsFit R body body' := by
  intro field hfield
  obtain ⟨found, hpair⟩ := exists_zip_of_mem_right (by simpa using congrArg List.length hnames) hfield
  refine ⟨found, ?_, h _ hpair⟩
  rw [← eq_of_mem_zip hnames hpair]
  exact StructBody.field?_of_mem (List.of_mem_zip hpair).1 hdistinct

theorem casesFit_of_zip {cases cases' : List (VariantCase Ty)} (hnames : cases.map (·.name) = cases'.map (·.name))
    (hdistinct : (cases.map (·.name)).Nodup)
    (h : ∀ p ∈ cases.zip cases', List.Forall₂ (fun a e => R a.type e.type) p.1.params p.2.params) :
    CasesFit R cases cases' := by
  have hlength : cases.length = cases'.length := by simpa using congrArg List.length hnames
  refine ⟨hlength, fun case hcase => ?_⟩
  obtain ⟨found, hpair⟩ := exists_zip_of_mem_right hlength hcase
  refine ⟨found, ?_, h _ hpair⟩
  rw [← eq_of_mem_zip hnames hpair]
  exact find?_of_mem (List.of_mem_zip hpair).1 hdistinct

namespace Closed

variable (h : Closed f R)

include h

theorem of_fits (hfits : Fits R x y) : R x y := by
  rcases hfits with hsame | hnever | herror | ⟨-, -, hxy⟩
  · exact h.of_same hsame
  · exact h.of_never hnever
  · exact h _ _ (.inr (.inr (.inr (.inl herror))))
  · exact hxy

theorem fits_nullable {a b : Ty} (hx : x.shape = .nullable a) (hy : y.shape = .nullable b) (hab : R a b) :
    Fits R x y := by
  refine .inr (.inr (.inr ⟨by simp [Ty.primitive?, hx], by simp [Ty.primitive?, hy], h _ _ ?_⟩))
  refine .inr (.inr (.inr (.inr (.inr ?_))))
  rw [Proper, hx, hy]
  exact hab

theorem fits_named {r r' : Reference Ty} (hx : x.shape = .ref r) (hy : y.shape = .ref r') (hdecl : r.decl = r'.decl)
    (hargs : List.Forall₂ (Fits R) r.args r'.args) : Fits R x y := by
  refine .inr (.inr (.inr ⟨by simp [Ty.primitive?, hx], by simp [Ty.primitive?, hy], h _ _ ?_⟩))
  refine .inr (.inr (.inr (.inr (.inr ?_))))
  rw [Proper, hx, hy]
  dsimp only
  rw [if_pos hdecl]
  exact hargs

theorem fits_of_structural {s s' : Shape Ty} (hx : x.shape = s) (hy : y.shape = s') (hs : s.isComposite = true)
    (hs' : s'.isComposite = true) (hstructural : Structural f R x y) : Fits R x y := by
  have hviews {t : Ty} (ht : t.shape.isComposite = true) :
      t.primitive? = none ∧ t.reference? = none ∧ t.isNullable = false := by
    unfold Shape.isComposite at ht
    split at ht <;> simp_all [Ty.primitive?, Ty.reference?, Ty.isNullable]
  obtain ⟨hprimitive, hunnamed, hnullable⟩ := hviews (hx ▸ hs)
  obtain ⟨hprimitive', hunnamed', hnullable'⟩ := hviews (hy ▸ hs')
  exact .inr (.inr (.inr ⟨hprimitive, hprimitive',
    h.of_structural hunnamed hunnamed' hnullable hnullable' hstructural⟩))

/-- Unions are in `Fits` if their members are related in order, and those of the first are `isPlain`. -/
theorem fits_union {as bs : List Ty} (hx : x.shape = .union as) (hy : y.shape = .union bs)
    (hlength : as.length = bs.length) (hplain : ∀ a ∈ as, a.isPlain = true) (hmembers : ∀ p ∈ as.zip bs, R p.1 p.2) :
    Fits R x y := by
  refine h.fits_of_structural hx hy rfl rfl ?_
  rw [Structural, hx]
  intro a ha
  obtain ⟨b, hpair⟩ := exists_zip_of_mem_left hlength ha
  have hab : ∃ b ∈ bs, R a b := ⟨b, (List.of_mem_zip hpair).2, hmembers _ hpair⟩
  obtain ⟨hunnamed, hnullable⟩ := Ty.unnamed_of_isPlain (hplain a ha)
  -- a plain member is looked up among the members of the other union as it stands
  refine h.of_structural hunnamed (by simp [Ty.reference?, hy]) hnullable (by simp [Ty.isNullable, hy]) ?_
  have hform := hplain a ha
  unfold Ty.isPlain at hform
  rw [Structural, hy]
  split at hform <;> simp_all

/-- Joins are in `Fits` if their members are related in order, and those of the second are `isPlain` and no joins. -/
theorem fits_join {as bs : List Ty} (hx : x.shape = .join as) (hy : y.shape = .join bs)
    (hlength : as.length = bs.length) (hplain : ∀ b ∈ bs, b.isPlain = true ∧ ∀ members, b.shape ≠ .join members)
    (hmembers : ∀ p ∈ as.zip bs, R p.1 p.2) : Fits R x y := by
  refine h.fits_of_structural hx hy rfl rfl ?_
  rw [Structural, hx, hy]
  intro b hb
  obtain ⟨a, hpair⟩ := exists_zip_of_mem_right hlength hb
  have hab : ∃ a ∈ as, R a b := ⟨a, (List.of_mem_zip hpair).1, hmembers _ hpair⟩
  obtain ⟨hunnamed, hnullable⟩ := Ty.unnamed_of_isPlain (hplain b hb).1
  -- the first join is taken apart for a plain member, which must not be taken apart before it
  refine h.of_structural (by simp [Ty.reference?, hx]) hunnamed (by simp [Ty.isNullable, hx]) hnullable ?_
  obtain ⟨hform, hjoin⟩ := hplain b hb
  unfold Ty.isPlain at hform
  rw [Structural, hx]
  split at hform <;> simp_all

end Closed

end Assignability

/-! ## Widening -/

namespace Unfolding

variable {f : Unfolding}

/-- `y` is `x` with types replaced as `given` allows, at places that assignability goes through. -/
inductive Widens (f : Unfolding) (given : Ty → Ty → Prop) : Ty → Ty → Prop where
  | given {x y : Ty} (h : given x y) : Widens f given x y
  | same {x y : Ty} (h : x.same y = true) : Widens f given x y
  | upTo {x x' y y' : Ty} (hx : x.same x' = true) (hy : y.same y' = true) (h : Widens f given x' y') :
    Widens f given x y
  | nullable {x y a b : Ty} (hx : x.shape = .nullable a) (hy : y.shape = .nullable b) (h : Widens f given a b) :
    Widens f given x y
  | array {x y a b : Ty} (hx : x.shape = .array a) (hy : y.shape = .array b) (h : Widens f given a b) :
    Widens f given x y
  | tuple {x y : Ty} {as bs : List Ty} (hx : x.shape = .tuple as) (hy : y.shape = .tuple bs)
    (hlength : as.length = bs.length) (h : ∀ p ∈ as.zip bs, Widens f given p.1 p.2) : Widens f given x y
  | union {x y : Ty} {as bs : List Ty} (hx : x.shape = .union as) (hy : y.shape = .union bs)
    (hlength : as.length = bs.length) (hplain : ∀ a ∈ as, a.isPlain = true)
    (h : ∀ p ∈ as.zip bs, Widens f given p.1 p.2) : Widens f given x y
  | join {x y : Ty} {as bs : List Ty} (hx : x.shape = .join as) (hy : y.shape = .join bs)
    (hlength : as.length = bs.length) (hplain : ∀ b ∈ bs, b.isPlain = true ∧ ∀ members, b.shape ≠ .join members)
    (h : ∀ p ∈ as.zip bs, Widens f given p.1 p.2) : Widens f given x y
  | struct {x y : Ty} {body body' : StructBody Ty} (hx : x.shape = .struct body) (hy : y.shape = .struct body')
    (hnames : body.fields.map (·.name) = body'.fields.map (·.name)) (hdistinct : (body.fields.map (·.name)).Nodup)
    (h : ∀ p ∈ body.fields.zip body'.fields, Widens f given p.1.type p.2.type) : Widens f given x y
  | variant {x y : Ty} {cases cases' : List (VariantCase Ty)} (hx : x.shape = .variant cases)
    (hy : y.shape = .variant cases') (hnames : cases.map (·.name) = cases'.map (·.name))
    (hdistinct : (cases.map (·.name)).Nodup) (hlength : ∀ p ∈ cases.zip cases', p.1.params.length = p.2.params.length)
    (h : ∀ p ∈ cases.zip cases', ∀ q ∈ p.1.params.zip p.2.params, Widens f given q.1.type q.2.type) :
    Widens f given x y
  | named {x y : Ty} {r r' : Reference Ty} (hx : x.shape = .ref r) (hy : y.shape = .ref r') (hdecl : r.decl = r'.decl)
    (hlength : r.args.length = r'.args.length) (h : ∀ p ∈ r.args.zip r'.args, Widens f given p.1 p.2) :
    Widens f given x y
  | constructed {x y : Ty} {c c' : Constructed Ty} (hx : x.shape = .constructed c) (hy : y.shape = .constructed c')
    (hvariant : c.variantName = c'.variantName) (hname : c.name = c'.name) (hlength : c.args.length = c'.args.length)
    (h : ∀ p ∈ c.args.zip c'.args, Widens f given p.1 p.2) : Widens f given x y
  /-- Functions and coroutines. Their parameters are widened the other way round. -/
  | signature {x y : Ty} {s s' : Signature Ty}
    (hshapes : x.shape = .fn s ∧ y.shape = .fn s' ∨ x.shape = .coroutine s ∧ y.shape = .coroutine s')
    (hkind : s.kind = s'.kind) (hlength : s.params.length = s'.params.length)
    (hparams : ∀ p ∈ s.params.zip s'.params, Widens f given p.2.type p.1.type)
    (hresult : Widens f given s.result s'.result) : Widens f given x y
  /-- Interfaces, by all of their methods. -/
  | interface {x y : Ty} {body body' : InterfaceBody Ty} (hx : x.shape = .interface body)
    (hy : y.shape = .interface body') (hlength : (f.interfaceMethods body).length = (f.interfaceMethods body').length)
    (hmethods : ∀ p ∈ (f.interfaceMethods body).zip (f.interfaceMethods body'), p.1.names.overlaps p.2.names = true ∧
      p.1.signature.kind = p.2.signature.kind ∧ p.1.signature.params.length = p.2.signature.params.length)
    (hparams : ∀ p ∈ (f.interfaceMethods body).zip (f.interfaceMethods body'),
      ∀ q ∈ p.1.signature.params.zip p.2.signature.params, Widens f given q.2.type q.1.type)
    (hresults : ∀ p ∈ (f.interfaceMethods body).zip (f.interfaceMethods body'),
      Widens f given p.1.signature.result p.2.signature.result) : Widens f given x y

variable {R given : Ty → Ty → Prop}

/-- `Widens` implies `Fits` for a relation that is `Closed`, if the given types are in it. -/
theorem Widens.fits (hclosed : Closed f R) (herase : ∀ a e, R a.erase e.erase ↔ R a e)
    (hgiven : ∀ x y, given x y → Fits R x y) (h : f.Widens given x y) : Fits R x y := by
  induction h with
  | given h => exact hgiven _ _ h
  | same h => exact .inl h
  | upTo hx hy _ ih =>
    rw [Ty.same_iff_erase_eq] at hx hy
    rwa [← fits_erase herase, hx, hy, fits_erase herase]
  | nullable hx hy _ ih => exact hclosed.fits_nullable hx hy (hclosed.of_fits ih)
  | array hx hy _ ih =>
    refine hclosed.fits_of_structural hx hy rfl rfl ?_
    rw [Structural, hx, hy]
    exact ih
  | tuple hx hy hlength _ ih =>
    refine hclosed.fits_of_structural hx hy rfl rfl ?_
    rw [Structural, hx, hy]
    exact forall₂_of_zip hlength fun p hp => hclosed.of_fits (ih p hp)
  | union hx hy hlength hplain _ ih =>
    exact hclosed.fits_union hx hy hlength hplain fun p hp => hclosed.of_fits (ih p hp)
  | join hx hy hlength hplain _ ih =>
    exact hclosed.fits_join hx hy hlength hplain fun p hp => hclosed.of_fits (ih p hp)
  | struct hx hy hnames hdistinct _ ih =>
    refine hclosed.fits_of_structural hx hy rfl rfl ?_
    rw [Structural, hx, hy]
    exact fieldsFit_of_zip hnames hdistinct fun p hp => hclosed.of_fits (ih p hp)
  | variant hx hy hnames hdistinct hlength _ ih =>
    refine hclosed.fits_of_structural hx hy rfl rfl ?_
    rw [Structural, hx, hy]
    refine casesFit_of_zip hnames hdistinct fun p hp => ?_
    exact forall₂_of_zip (hlength p hp) fun q hq => hclosed.of_fits (ih p hp q hq)
  | named hx hy hdecl hlength _ ih => exact hclosed.fits_named hx hy hdecl (forall₂_of_zip hlength ih)
  | constructed hx hy hvariant hname hlength _ ih =>
    refine hclosed.fits_of_structural hx hy rfl rfl ?_
    rw [Structural, hx, hy]
    exact ⟨hvariant, hname, forall₂_of_zip hlength ih⟩
  | signature hshapes hkind hlength _ _ ihparams ihresult =>
    -- functions and coroutines are compared by their signatures alone
    have hsignature : SignatureFits R _ _ :=
      ⟨hkind, forall₂_of_zip hlength fun p hp => hclosed.of_fits (ihparams p hp), hclosed.of_fits ihresult⟩
    rcases hshapes with ⟨hx, hy⟩ | ⟨hx, hy⟩
    · refine hclosed.fits_of_structural hx hy rfl rfl ?_
      rw [Structural, hx, hy]
      exact hsignature
    · refine hclosed.fits_of_structural hx hy rfl rfl ?_
      rw [Structural, hx, hy]
      exact hsignature
  | interface hx hy hlength hmethods _ _ ihparams ihresults =>
    refine hclosed.fits_of_structural hx hy rfl rfl ?_
    rw [Structural, hx, hy]
    -- any method with a name in common will do, so the one that stands beside it does
    intro method hmethod
    obtain ⟨candidate, hpair⟩ := exists_zip_of_mem_right hlength hmethod
    obtain ⟨hnames, hkind, hparams⟩ := hmethods _ hpair
    refine ⟨candidate, (List.of_mem_zip hpair).1, hnames, hkind, ?_, hclosed.of_fits (ihresults _ hpair)⟩
    exact forall₂_of_zip hparams fun q hq => hclosed.of_fits (ihparams _ hpair q hq)

end Unfolding

end Ascribe
