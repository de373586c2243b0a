import Mathlib.Algebra.Ring.Int.Defs
import Ascribe.Primitive

/-!
# The order of primitives

Conversion without a cast is an order on the primitives (`Primitive.coercesTo_trans`), and the type that two
numeric operands meet in lies above both of them (`Primitive.coercesTo_widen`), hence the one that several of
them meet in above all of them (`Primitive.coercesTo_foldlM_widen`). There are few primitives, so facts about two
or three of them are checked on all (`Primitive.mem_all`).

Meeting one after another does not always end in the narrowest type above all operands, since `u64` and a signed
integer meet in `f64` while `f32` is above both. This is the only exception
(`Primitive.coercesTo_of_foldlM_widen`), so operands that have no type above all others among them do meet in the
narrowest one (`Primitive.narrowest_foldlM_widen`), whatever their order. So do all others, if they are not torn between
the two floats (`Primitive.IsTorn`, `Primitive.narrowest_of_foldlM_widen`).

The values of an integer type are given by its width and its sign (`Primitive.Holds`), and its range is that of them
(`Primitive.fits_iff_holds`).
-/

namespace Ascribe.Primitive

theorem mem_all (p : Primitive) : p ∈ all := by
  cases p <;> decide

@[simp] theorem coercesTo_self (p : Primitive) : p.coercesTo p = true := by
  simp [coercesTo]

theorem coercesTo_trans {p q r : Primitive} (hpq : p.coercesTo q = true) (hqr : q.coercesTo r = true) :
    p.coercesTo r = true := by
  have hall : ∀ p ∈ all, ∀ q ∈ all, ∀ r ∈ all,
      p.coercesTo q = true → q.coercesTo r = true → p.coercesTo r = true := by
    decide +kernel
  exact hall p p.mem_all q q.mem_all r r.mem_all hpq hqr

/-- Only a primitive itself `coercesTo` one that is not `isNumeric`. -/
theorem eq_of_coercesTo {p q : Primitive} (h : p.coercesTo q = true) (hq : q.isNumeric = false) : p = q := by
  have hall : ∀ p ∈ all, ∀ q ∈ all, p.coercesTo q = true → q.isNumeric = false → p = q := by
    decide +kernel
  exact hall p p.mem_all q q.mem_all h hq

/-- `coercesTo` does not lead from a number to anything else, nor back. -/
theorem coercesTo_of_isNumeric_ne {p q : Primitive} (h : p.isNumeric ≠ q.isNumeric) : p.coercesTo q = false := by
  have hall : ∀ p ∈ all, ∀ q ∈ all, p.isNumeric ≠ q.isNumeric → p.coercesTo q = false := by
    decide +kernel
  exact hall p p.mem_all q q.mem_all h

/-- Both operands of `widen` convert to its result. -/
theorem coercesTo_widen {p q r : Primitive} (h : p.widen q = some r) :
    p.coercesTo r = true ∧ q.coercesTo r = true := by
  have hall : ∀ p ∈ all, ∀ q ∈ all, ∀ r ∈ all,
      p.widen q = some r → p.coercesTo r = true ∧ q.coercesTo r = true := by
    decide +kernel
  exact hall p p.mem_all q q.mem_all r r.mem_all h

/-- `widen` gives the wider of two numbers, if one of them `coercesTo` the other. -/
theorem widen_of_coercesTo {p q : Primitive} (hp : p.isNumeric = true) (hq : q.isNumeric = true)
    (h : p.coercesTo q = true) : p.widen q = some q := by
  simp [widen, hp, hq, h]

theorem isNumeric_widen {p q r : Primitive} (h : p.widen q = some r) : r.isNumeric = true := by
  have hall : ∀ p ∈ all, ∀ q ∈ all, ∀ r ∈ all, p.widen q = some r → r.isNumeric = true := by
    decide +kernel
  exact hall p p.mem_all q q.mem_all r r.mem_all h

/-- All operands convert to the result of folding `widen` over them. -/
theorem coercesTo_foldlM_widen {p r : Primitive} {others : List Primitive} (h : others.foldlM widen p = some r) :
    ∀ q ∈ p :: others, q.coercesTo r = true := by
  induction others generalizing p with
  | nil =>
    obtain rfl := Option.some.inj h
    simp
  | cons q rest ih =>
    rw [List.foldlM_cons] at h
    obtain ⟨met, hmet, hrest⟩ := Option.bind_eq_some_iff.mp h
    obtain ⟨hp, hq⟩ := coercesTo_widen hmet
    have habove := List.forall_mem_cons.mp (ih hrest)
    simp only [List.forall_mem_cons]
    exact ⟨coercesTo_trans hp habove.1, coercesTo_trans hq habove.1, habove.2⟩

/-- Folding `widen` over two or more operands gives a type that `isNumeric`. -/
theorem isNumeric_foldlM_widen {p q r : Primitive} {others : List Primitive}
    (h : (q :: others).foldlM widen p = some r) : r.isNumeric = true := by
  induction others generalizing p q with
  | nil =>
    obtain ⟨met, hmet, hrest⟩ := Option.bind_eq_some_iff.mp h
    obtain rfl := Option.some.inj hrest
    exact isNumeric_widen hmet
  | cons q' rest ih =>
    obtain ⟨met, -, hrest⟩ := Option.bind_eq_some_iff.mp h
    exact ih hrest

/-! ## The narrowest common type -/

theorem coercesTo_antisymm {p q : Primitive} (hpq : p.coercesTo q = true) (hqp : q.coercesTo p = true) : p = q := by
  have hall : ∀ p ∈ all, ∀ q ∈ all, p.coercesTo q = true → q.coercesTo p = true → p = q := by
    decide +kernel
  exact hall p p.mem_all q q.mem_all hpq hqp

/-- Nothing is above `f64`. -/
theorem eq_f64_of_coercesTo {p : Primitive} (h : f64.coercesTo p = true) : p = .f64 := by
  have hall : ∀ p ∈ all, f64.coercesTo p = true → p = .f64 := by
    decide +kernel
  exact hall p p.mem_all h

/-- Numbers always meet, in one of them, an integer, or `f64`. -/
theorem exists_widen {p q : Primitive} (hp : p.isNumeric = true) (hq : q.isNumeric = true) :
    ∃ r, p.widen q = some r ∧ (r = p ∨ r = q ∨ r.isInteger = true ∨ r = .f64) := by
  have hall : ∀ p ∈ all, ∀ q ∈ all, p.isNumeric = true → q.isNumeric = true →
      ∃ r ∈ all, p.widen q = some r ∧ (r = p ∨ r = q ∨ r.isInteger = true ∨ r = .f64) := by
    decide +kernel
  obtain ⟨r, -, hr⟩ := hall p p.mem_all q q.mem_all hp hq
  exact ⟨r, hr⟩

/-- What two operands meet in is below everything above both, but for a detour to `f64` where `f32` would do. -/
theorem coercesTo_of_widen {p q r u : Primitive} (h : p.widen q = some r) (hp : p.coercesTo u = true)
    (hq : q.coercesTo u = true) (hdetour : u = .f32 → r ≠ .f64) : r.coercesTo u = true := by
  have hall : ∀ p ∈ all, ∀ q ∈ all, ∀ u ∈ all, p.coercesTo u = true → q.coercesTo u = true →
      ∀ r ∈ p.widen q, (u = .f32 → r ≠ .f64) → r.coercesTo u = true := by
    decide +kernel
  exact hall p p.mem_all q q.mem_all u u.mem_all hp hq r h hdetour

/-- The result of folding `widen` over operands `coercesTo` every type that all of them do, but for `f64` and `f32`. -/
theorem coercesTo_of_foldlM_widen {p r u : Primitive} {others : List Primitive} (h : others.foldlM widen p = some r)
    (hu : ∀ q ∈ p :: others, q.coercesTo u = true) (hdetour : u = .f32 → r ≠ .f64) : r.coercesTo u = true := by
  induction others generalizing p with
  | nil =>
    obtain rfl := Option.some.inj h
    exact hu _ List.mem_cons_self
  | cons q rest ih =>
    rw [List.foldlM_cons] at h
    obtain ⟨met, hmet, hrest⟩ := Option.bind_eq_some_iff.mp h
    simp only [List.forall_mem_cons] at hu
    have hbelow : met.coercesTo u = true := by
      apply coercesTo_of_widen hmet hu.1 hu.2.1
      rintro hf32 rfl
      -- once the operands have met in `f64` they stay there
      exact hdetour hf32 (eq_f64_of_coercesTo (coercesTo_foldlM_widen hrest _ List.mem_cons_self))
    apply ih hrest
    exact List.forall_mem_cons.mpr ⟨hbelow, hu.2.2⟩

/-- Whether numbers may meet in a type: it is one of them, an integer, or `f64`. -/
def MayMeetIn (ps : List Primitive) (r : Primitive) : Prop :=
  r ∈ ps ∨ r.isInteger = true ∨ r = .f64

instance (ps : List Primitive) (r : Primitive) : Decidable (MayMeetIn ps r) :=
  inferInstanceAs (Decidable (_ ∨ _))

theorem exists_foldlM_widen {p : Primitive} {others : List Primitive} (h : ∀ q ∈ p :: others, q.isNumeric = true) :
    ∃ r, others.foldlM widen p = some r ∧ MayMeetIn (p :: others) r := by
  induction others generalizing p with
  | nil => exact ⟨p, rfl, .inl List.mem_cons_self⟩
  | cons q rest ih =>
    simp only [List.forall_mem_cons] at h
    obtain ⟨met, hmet, hcases⟩ := exists_widen h.1 h.2.1
    obtain ⟨r, hr, hr'⟩ := ih (List.forall_mem_cons.mpr ⟨isNumeric_widen hmet, h.2.2⟩)
    refine ⟨r, by rw [List.foldlM_cons, hmet]; exact hr, ?_⟩
    rcases hr' with hmem | hr'
    · rcases List.mem_cons.mp hmem with rfl | hmem
      · rcases hcases with rfl | rfl | hcases
        · exact .inl List.mem_cons_self
        · exact .inl (List.mem_cons_of_mem _ List.mem_cons_self)
        · exact .inr hcases
      · exact .inl (List.mem_cons_of_mem _ (List.mem_cons_of_mem _ hmem))
    · exact .inr hr'

/-- The narrowest type that numbers may meet in and that all of them convert to. -/
structure Narrowest (ps : List Primitive) (r : Primitive) : Prop where
  mayMeetIn : MayMeetIn ps r
  above : ∀ p ∈ ps, p.coercesTo r = true
  least : ∀ u, MayMeetIn ps u → (∀ p ∈ ps, p.coercesTo u = true) → r.coercesTo u = true

instance (ps : List Primitive) (r : Primitive) : Decidable (Narrowest ps r) :=
  decidable_of_iff
    (MayMeetIn ps r ∧ (∀ p ∈ ps, p.coercesTo r = true) ∧
      ∀ u ∈ all, MayMeetIn ps u → (∀ p ∈ ps, p.coercesTo u = true) → r.coercesTo u = true)
    ⟨fun h => ⟨h.1, h.2.1, fun u => h.2.2 u u.mem_all⟩, fun h => ⟨h.mayMeetIn, h.above, fun u _ => h.least u⟩⟩

theorem Narrowest.unique {ps : List Primitive} {r r' : Primitive} (h : Narrowest ps r) (h' : Narrowest ps r') :
    r = r' :=
  coercesTo_antisymm (h.least r' h'.mayMeetIn h'.above) (h'.least r h.mayMeetIn h.above)

theorem Narrowest.isNumeric {ps : List Primitive} {r : Primitive} (h : Narrowest ps r)
    (hps : ∀ p ∈ ps, p.isNumeric = true) : r.isNumeric = true := by
  rcases h.mayMeetIn with hr | hr | rfl
  · exact hps r hr
  · rw [Primitive.isNumeric, hr, Bool.true_or]
  · rfl

/-- `Narrowest` depends on neither the order nor the repetition of operands. -/
theorem Narrowest.congr {ps qs : List Primitive} {r : Primitive} (h : ∀ p, p ∈ ps ↔ p ∈ qs) (hr : Narrowest ps r) :
    Narrowest qs r := by
  constructor
  · rw [MayMeetIn, ← h]
    exact hr.mayMeetIn
  · intro p hp
    exact hr.above p ((h p).mpr hp)
  · intro u hu habove
    apply hr.least u
    · rw [MayMeetIn, h]
      exact hu
    · intro p hp
      exact habove p ((h p).mp hp)

theorem narrowest_of_mem {ps : List Primitive} {r : Primitive} (hr : r ∈ ps) (habove : ∀ p ∈ ps, p.coercesTo r = true) :
    Narrowest ps r :=
  ⟨.inl hr, habove, fun _ _ hu => hu r hr⟩

/-- Folding `widen` over numbers none of which is above all others gives the `Narrowest` type. -/
theorem narrowest_foldlM_widen {p : Primitive} {others : List Primitive}
    (hnumeric : ∀ q ∈ p :: others, q.isNumeric = true)
    (hnone : ∀ u ∈ p :: others, ¬ ∀ q ∈ p :: others, q.coercesTo u = true) :
    ∃ r, others.foldlM widen p = some r ∧ Narrowest (p :: others) r := by
  obtain ⟨r, hr, hmeet⟩ := exists_foldlM_widen hnumeric
  refine ⟨r, hr, hmeet, coercesTo_foldlM_widen hr, fun u hu habove => ?_⟩
  apply coercesTo_of_foldlM_widen hr habove
  -- `f32` would have to be one of them
  rintro rfl
  rcases hu with hmem | hinteger | hf64
  · exact absurd habove (hnone _ hmem)
  · cases hinteger
  · cases hf64

/-! ## The detour -/

/-- Whether numbers meet in different types in different orders: `f32` is above all of them, but `u64` and a signed
integer among them meet in `f64`. -/
def IsTorn (ps : List Primitive) : Prop :=
  .f32 ∈ ps ∧ .f64 ∉ ps ∧ .u64 ∈ ps ∧ ∃ p ∈ ps, p.isSigned = true

instance (ps : List Primitive) : Decidable (IsTorn ps) :=
  inferInstanceAs (Decidable (_ ∧ _ ∧ _ ∧ _))

/-- What holds of all operands and is kept by `widen` holds of the result of folding it over them. -/
theorem foldlM_widen_induction {P : Primitive → Prop} (hmeet : ∀ {p q r}, P p → P q → p.widen q = some r → P r)
    {p r : Primitive} {others : List Primitive} (h : others.foldlM widen p = some r) (hall : ∀ q ∈ p :: others, P q) :
    P r := by
  induction others generalizing p with
  | nil =>
    obtain rfl := Option.some.inj h
    exact hall _ List.mem_cons_self
  | cons q rest ih =>
    rw [List.foldlM_cons] at h
    obtain ⟨met, hmet, hrest⟩ := Option.bind_eq_some_iff.mp h
    simp only [List.forall_mem_cons] at hall
    apply ih hrest
    exact List.forall_mem_cons.mpr ⟨hmeet hall.1 hall.2.1 hmet, hall.2.2⟩

/-- One of the operands that meet in `f64` passes a test, if operands that do not pass it, and are not `f64`, never
meet in anything that does or is. -/
theorem exists_of_foldlM_widen_eq_f64 (test : Primitive → Bool)
    (hmeet : ∀ p ∈ all, ∀ q ∈ all, test p = false ∧ p ≠ .f64 → test q = false ∧ q ≠ .f64 →
      ∀ r ∈ p.widen q, test r = false ∧ r ≠ .f64)
    {p : Primitive} {others : List Primitive} (h : others.foldlM widen p = some .f64) (hf64 : .f64 ∉ p :: others) :
    ∃ q ∈ p :: others, test q = true := by
  cases hany : (p :: others).any test with
  | true => exact List.any_eq_true.mp hany
  | false =>
    rw [List.any_eq_false] at hany
    have hmet : test .f64 = false ∧ Primitive.f64 ≠ .f64 := by
      apply foldlM_widen_induction (P := fun p => test p = false ∧ p ≠ .f64) _ h
      · intro q hq
        exact ⟨by simpa using hany q hq, fun heq => hf64 (heq ▸ hq)⟩
      · intro p q r hp hq hr
        exact hmeet p p.mem_all q q.mem_all hp hq r hr
    exact absurd rfl hmet.2

/-- Only `u64` and a signed integer meet in `f64`, unless it is there already. -/
theorem mem_of_foldlM_widen_eq_f64 {p : Primitive} {others : List Primitive} (h : others.foldlM widen p = some .f64)
    (hf64 : .f64 ∉ p :: others) : .u64 ∈ p :: others ∧ ∃ q ∈ p :: others, q.isSigned = true := by
  obtain ⟨q, hq, hu64⟩ := exists_of_foldlM_widen_eq_f64 (· = .u64) (by decide +kernel) h hf64
  obtain rfl := of_decide_eq_true hu64
  exact ⟨hq, exists_of_foldlM_widen_eq_f64 isSigned (by decide +kernel) h hf64⟩

/-- If folding `widen` over some of the numbers gives a type that all of them convert to, then it is the `Narrowest`
one, unless they are `IsTorn`. -/
theorem narrowest_of_foldlM_widen {ps : List Primitive} {p r : Primitive} {others : List Primitive}
    (hsome : ∀ q ∈ p :: others, q ∈ ps) (hnumeric : ∀ q ∈ ps, q.isNumeric = true) (h : others.foldlM widen p = some r)
    (habove : ∀ q ∈ ps, q.coercesTo r = true) (htorn : ¬ IsTorn ps) : Narrowest ps r := by
  obtain ⟨r', hr', hmeet⟩ := exists_foldlM_widen fun q hq => hnumeric q (hsome q hq)
  obtain rfl := Option.some.inj (h.symm.trans hr')
  refine ⟨hmeet.imp_left (hsome r), habove, fun u hu hbelow => ?_⟩
  apply coercesTo_of_foldlM_widen h fun q hq => hbelow q (hsome q hq)
  rintro rfl rfl
  apply htorn
  have hf64 : .f64 ∉ ps := fun hmem => nomatch eq_f64_of_coercesTo (hbelow _ hmem)
  obtain ⟨hu64, q, hq, hsigned⟩ := mem_of_foldlM_widen_eq_f64 h fun hmem => hf64 (hsome _ hmem)
  have hf32 : .f32 ∈ ps := by
    rcases hu with hmem | hinteger | heq
    · exact hmem
    · cases hinteger
    · cases heq
  exact ⟨hf32, hf64, hsome _ hu64, q, hsome q hq, hsigned⟩

/-! ## Values -/

/-- The values of an integer type: the numbers that its bits can hold, in two's complement if it is signed. -/
def Holds (p : Primitive) (value : Int) : Prop :=
  p.isInteger = true ∧ ∃ width ∈ p.width?,
    if p.isSigned then -2 ^ (width - 1) ≤ value ∧ value < 2 ^ (width - 1) else 0 ≤ value ∧ value < 2 ^ width

theorem fits_iff_holds {p : Primitive} {value : Int} : p.fits value = true ↔ p.Holds value := by
  cases p <;> simp [fits, range?, Holds, isInteger, width?, isSigned] <;> omega

end Ascribe.Primitive
