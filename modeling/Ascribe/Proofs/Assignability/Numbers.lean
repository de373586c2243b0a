import Ascribe.Proofs.Assignability.Unresolved
import Ascribe.Proofs.Primitive

/-!
# Types of numbers

The types `never`, `null`, a number type and a nullable number type differ in two things only: which numbers are among
their values, and whether null is (`Numbers`). Up to back-references they are determined by these two
(`Ty.same_toTy`), and so is every comparison of two of them (`Comparer.step_numbers`): it needs no declarations and no
more than two steps.
-/

namespace Ascribe

/-- The values of a type of numbers: those of a number type, if there is one, and perhaps null. -/
@[ext]
structure Numbers where
  number : Option Primitive
  hasNull : Bool
  deriving DecidableEq, Repr

namespace Numbers

/-- The type with given values. -/
def toTy : Numbers → Ty
  | ⟨none, false⟩ => .never
  | ⟨none, true⟩ => .null
  | ⟨some p, false⟩ => .prim p
  | ⟨some p, true⟩ => .nullable (.prim p)

/-- Whether all values of one type of numbers convert to values of another. -/
def fits (a e : Numbers) : Bool :=
  (!a.hasNull || e.hasNull) && a.number.all fun p => e.number.any p.coercesTo

theorem fits_iff {a e : Numbers} :
    a.fits e = true ↔
      (a.hasNull = true → e.hasNull = true) ∧ ∀ p, a.number = some p → e.number.any p.coercesTo = true := by
  obtain ⟨number, hasNull⟩ := a
  cases number <;> cases hasNull <;> simp [fits]

theorem fits_self (a : Numbers) : a.fits a = true := by
  obtain ⟨number, hasNull⟩ := a
  cases number <;> simp [fits]

end Numbers

namespace Ty

variable {t u : Ty} {m : Numbers} {p : Primitive}

/-- The values of a type that is `never`, `null`, a number type or a nullable number type. -/
def numbers? (t : Ty) : Option Numbers :=
  match t.shape with
  | .prim p =>
    if p.isNumeric then some ⟨some p, false⟩
    else if p = .null then some ⟨none, true⟩
    else if p = .never then some ⟨none, false⟩
    else none
  | .nullable base => if base.isNumeric then some ⟨base.primitive?, true⟩ else none
  | _ => none

/-- The kinds of types of numbers. -/
inductive HoldsNumbers (t : Ty) : Numbers → Prop where
  | never (shape : t.shape = .prim .never) : HoldsNumbers t ⟨none, false⟩
  | null (shape : t.shape = .prim .null) : HoldsNumbers t ⟨none, true⟩
  | number {p : Primitive} (shape : t.shape = .prim p) (numeric : p.isNumeric = true) : HoldsNumbers t ⟨some p, false⟩
  | nullable {base : Ty} {p : Primitive} (shape : t.shape = .nullable base) (inner : base.shape = .prim p)
    (numeric : p.isNumeric = true) : HoldsNumbers t ⟨some p, true⟩

theorem plain_of_isNumeric (h : t.shape = .prim p) (hp : p.isNumeric = true) :
    t.isNever = false ∧ t.isNull = false ∧ t.isError = false := by
  have hne : p ≠ .never ∧ p ≠ .null := by
    constructor <;> rintro rfl <;> cases hp
  simp [isNever, isNull, isError, isPrimitive, primitive?, problem?, h, hne]

theorem HoldsNumbers.numbers?_eq (h : t.HoldsNumbers m) : t.numbers? = some m := by
  cases h with
  | never shape => rw [numbers?, shape]; rfl
  | null shape => rw [numbers?, shape]; rfl
  | number shape numeric => simp [numbers?, shape, numeric]
  | nullable shape inner numeric => simp [numbers?, shape, isNumeric, primitive?, inner, numeric]

theorem holdsNumbers (h : t.numbers? = some m) : t.HoldsNumbers m := by
  unfold numbers? at h
  split at h
  · next p hshape =>
    split_ifs at h with hnumeric hnull hnever
    · obtain rfl := Option.some.inj h
      exact .number hshape hnumeric
    · obtain rfl := Option.some.inj h
      exact .null (hnull ▸ hshape)
    · obtain rfl := Option.some.inj h
      exact .never (hnever ▸ hshape)
  · next base hshape =>
    split_ifs at h with hnumeric
    obtain rfl := Option.some.inj h
    obtain ⟨p, hp, hnumeric⟩ := (Option.any_eq_true _ _).mp hnumeric
    rw [hp]
    exact .nullable hshape (primitive?_eq_some.mp hp) hnumeric
  · cases h

theorem isNumeric_of_numbers? (h : t.numbers? = some m) (hp : m.number = some p) : p.isNumeric = true := by
  cases holdsNumbers h with
  | never => cases hp
  | null => cases hp
  | number shape numeric => cases hp; exact numeric
  | nullable shape inner numeric => cases hp; exact numeric

theorem numbers?_number (h : t.shape = .prim p) (hp : p.isNumeric = true) : t.numbers? = some ⟨some p, false⟩ :=
  (HoldsNumbers.number h hp).numbers?_eq

/-- `nullable` adds null to the `numbers?` of a number type. -/
theorem numbers?_nullable (h : t.shape = .prim p) (hp : p.isNumeric = true) :
    t.nullable.numbers? = some ⟨some p, true⟩ := by
  have hwraps : t.nullable = of (.nullable t) := by
    unfold nullable
    split
    · next hshape => cases h.symm.trans hshape
    · next hshape => cases h.symm.trans hshape
    · next hshape => cases h.symm.trans hshape; cases hp
    · next hshape => cases h.symm.trans hshape; cases hp
    · rfl
  rw [hwraps]
  exact (HoldsNumbers.nullable rfl h hp).numbers?_eq

/-- The nullable form of a type of numbers other than `never` has null besides its values. -/
theorem numbers?_nullable_of (h : t.numbers? = some m) (hvalues : m.number = none → m.hasNull = true) :
    t.nullable.numbers? = some ⟨m.number, true⟩ := by
  cases holdsNumbers h with
  | never => cases hvalues rfl
  | null shape =>
    have hself : t.nullable = t := by rw [nullable, shape]
    rw [hself, h]
  | number shape numeric => exact numbers?_nullable shape numeric
  | nullable shape =>
    have hself : t.nullable = t := by rw [nullable, shape]
    rw [hself, h]

/-- Types with equal `numbers?` are the same. -/
theorem same_of_numbers? (ht : t.numbers? = some m) (hu : u.numbers? = some m) : t.same u = true := by
  have hprim {t u : Ty} {p : Primitive} (ht : t.shape = .prim p) (hu : u.shape = .prim p) : t.same u = true := by
    rw [same_eq, ht, hu]
    exact beq_self_eq_true _
  cases holdsNumbers ht with
  | never shape =>
    cases holdsNumbers hu with
    | never shape' => exact hprim shape shape'
  | null shape =>
    cases holdsNumbers hu with
    | null shape' => exact hprim shape shape'
  | number shape =>
    cases holdsNumbers hu with
    | number shape' => exact hprim shape shape'
  | nullable shape inner =>
    cases holdsNumbers hu with
    | nullable shape' inner' =>
      rw [same_eq, shape, shape']
      exact hprim inner inner'

/-- A type with `numbers?` is the same as `toTy` of them. -/
theorem same_toTy (h : t.numbers? = some m) : t.same m.toTy = true := by
  apply same_of_numbers? h
  cases holdsNumbers h with
  | never => rfl
  | null => rfl
  | number _ numeric => exact numbers?_number rfl numeric
  | nullable _ _ numeric => exact numbers?_nullable rfl numeric

theorem numbers?_erase (t : Ty) : t.erase.numbers? = t.numbers? := by
  unfold numbers?
  rw [erase_shape]
  cases t.shape with
  | nullable base =>
    show (if base.erase.isNumeric then some (Numbers.mk base.erase.primitive? true) else none) = _
    rw [isNumeric, primitive?_erase]
    rfl
  | _ => rfl

/-- `numbers?` does not depend on back-references. -/
theorem numbers?_of_same (h : t.same u = true) : t.numbers? = u.numbers? := by
  rw [← numbers?_erase t, (same_iff_erase_eq t u).mp h, numbers?_erase]

/-- A type that `HoldsNumbers` is a primitive, which does not hold both a number and null, or a nullable number type. -/
theorem HoldsNumbers.prim_or_nullable (h : t.HoldsNumbers m) :
    (∃ p, t.shape = .prim p ∧ p ≠ .any ∧ (m.number = none ∨ m.hasNull = false)) ∨
      ∃ base p, t.shape = .nullable base ∧ base.shape = .prim p ∧ p.isNumeric = true ∧ m = ⟨some p, true⟩ := by
  cases h with
  | never shape => exact .inl ⟨.never, shape, by decide, .inl rfl⟩
  | null shape => exact .inl ⟨.null, shape, by decide, .inl rfl⟩
  | @number p shape numeric =>
    have hany : p ≠ .any := by
      rintro rfl
      cases numeric
    exact .inl ⟨p, shape, hany, .inr rfl⟩
  | @nullable base p shape inner numeric => exact .inr ⟨base, p, shape, inner, numeric, rfl⟩

/-- `fits` among primitives is told by `coercesTo`. -/
theorem HoldsNumbers.fits_prims {n : Numbers} {q : Primitive} (ht : t.HoldsNumbers m) (hu : u.HoldsNumbers n)
    (hp : t.shape = .prim p) (hq : u.shape = .prim q) : m.fits n = decide (p = .never ∨ p.coercesTo q = true) := by
  cases ht with
  | never shape =>
    cases hp.symm.trans shape
    simp [Numbers.fits]
  | null shape =>
    cases hp.symm.trans shape
    cases hu with
    | never shape' => cases hq.symm.trans shape'; rfl
    | null shape' => cases hq.symm.trans shape'; rfl
    | number shape' numeric' =>
      cases hq.symm.trans shape'
      have hnull : Primitive.null.coercesTo q = false := Primitive.coercesTo_of_isNumeric_ne (by rw [numeric']; decide)
      simp [Numbers.fits, hnull]
    | nullable shape' => cases hq.symm.trans shape'
  | number shape numeric =>
    cases hp.symm.trans shape
    have hnever : p ≠ .never := by rintro rfl; cases numeric
    have hother {q : Primitive} (hq : q.isNumeric = false) : p.coercesTo q = false :=
      Primitive.coercesTo_of_isNumeric_ne (by simp [numeric, hq])
    cases hu with
    | never shape' => cases hq.symm.trans shape'; simp [Numbers.fits, hnever, hother (q := .never) rfl]
    | null shape' => cases hq.symm.trans shape'; simp [Numbers.fits, hnever, hother (q := .null) rfl]
    | number shape' => cases hq.symm.trans shape'; simp [Numbers.fits, hnever]
    | nullable shape' => cases hq.symm.trans shape'
  | nullable shape => cases hp.symm.trans shape

end Ty

/-! ## Comparison -/

namespace Comparer

variable {σ : Type} {c inner : Comparer σ} {assumed : Assumptions} {a e : Ty}

/-- `step` compares primitives by `coercesTo`. -/
theorem step_prims {p q : Primitive} (ha : a.shape = .prim p) (he : e.shape = .prim q) (hany : q ≠ .any) :
    c.step assumed a e = if p = .never ∨ p.coercesTo q = true then accept else reject (.unlike a e) := by
  have hsame : (a == e) = decide (p = q) := by
    rw [Ty.beq_eq_same, Ty.same_eq, ha, he]
    rfl
  by_cases hpq : p = q
  · subst hpq
    simp [step, hsame]
  · by_cases hnever : p = .never
    · simp [step, hsame, hnever, Ty.isNever, Ty.isPrimitive, Ty.primitive?, ha]
    · have hplain : (a.isNever || a.isError || e.isError || e.isAny) = false := by
        simp [Ty.isNever, Ty.isAny, Ty.isError, Ty.isPrimitive, Ty.primitive?, Ty.problem?, ha, he, hnever, hany]
      rw [step, hsame, decide_eq_false hpq, hplain, ha, he]
      simp [general, structural, Ty.reference?, ha, he, hnever]

/-- `step` rejects a nullable type for a primitive other than `any`. -/
theorem step_of_nullable {base : Ty} {q : Primitive} (ha : a.shape = .nullable base) (he : e.shape = .prim q)
    (hany : q ≠ .any) : c.step assumed a e = reject (.mayBeNull a e) := by
  have hsame : (a == e) = false := by
    rw [Ty.beq_eq_same, Ty.same_eq, ha, he]
    rfl
  have hplain : (a.isNever || a.isError || e.isError || e.isAny) = false := by
    simp [Ty.isNever, Ty.isAny, Ty.isError, Ty.isPrimitive, Ty.primitive?, Ty.problem?, ha, he, hany]
  rw [step, hsame, hplain, ha, he]
  rfl

/-- `step` compares with the base of a nullable type, unless null or the type itself is given. -/
theorem step_to_nullable {base : Ty} (he : e.shape = .nullable base) (hsame : a.same e = false)
    (hnever : a.isNever = false) (hnull : a.isNull = false) (herror : a.isError = false) :
    c.step assumed a e = c.compare assumed a.stripNullable base := by
  have hplain : (a.isNever || a.isError || e.isError || e.isAny) = false := by
    rw [hnever, herror]
    simp [Ty.isAny, Ty.isError, Ty.isPrimitive, Ty.primitive?, Ty.problem?, he]
  rw [step, Ty.beq_eq_same, hsame, hplain, he, Ty.stripNullable]
  cases hshape : a.shape with
  | prim p =>
    have hp : p ≠ .null := by
      rintro rfl
      simp [Ty.isNull, Ty.isPrimitive, Ty.primitive?, hshape] at hnull
    cases p <;> first | exact absurd rfl hp | rfl
  | _ => rfl

/-- `step` on types of numbers of which the expected one is nullable agrees with `fits`. -/
theorem step_numbers_nullable (hc : c.compare = inner.step) {m : Numbers} {base : Ty} {q : Primitive}
    (ha : a.numbers? = some m) (he : e.shape = .nullable base) (hbase : base.shape = .prim q)
    (hq : q.isNumeric = true) :
    ∃ v, c.step assumed a e = pure v ∧ v.holds = m.fits ⟨some q, true⟩ := by
  have hany : q ≠ .any := by
    rintro rfl
    cases hq
  -- what is compared with the base is a number type
  have hinner {a : Ty} {p : Primitive} (ha : a.shape = .prim p) (hp : p.isNumeric = true) (hasNull : Bool) :
      ∃ v, c.compare assumed a base = pure v ∧ v.holds = Numbers.fits ⟨some p, hasNull⟩ ⟨some q, true⟩ := by
    have hnever : p ≠ .never := by
      rintro rfl
      cases hp
    rw [hc, step_prims ha hbase hany]
    by_cases hcoerces : p.coercesTo q = true
    · exact ⟨.ok (), by simp [hcoerces]; rfl, by simp [Numbers.fits, hcoerces, Verdict.holds]⟩
    · exact ⟨.error _, by simp [hcoerces, hnever]; rfl, by simp [Numbers.fits, hcoerces, Verdict.holds]⟩
  cases Ty.holdsNumbers ha with
  | never shape =>
    refine ⟨.ok (), ?_, rfl⟩
    simp [step, Ty.isNever, Ty.isPrimitive, Ty.primitive?, shape]
    rfl
  | null shape =>
    refine ⟨.ok (), ?_, rfl⟩
    unfold step
    rw [shape, he]
    split
    · rfl
    · split <;> rfl
  | number shape numeric =>
    have hsame : a.same e = false := by
      rw [Ty.same_eq, shape, he]
      rfl
    have hstrip : a.stripNullable = a := by rw [Ty.stripNullable, shape]
    obtain ⟨hnever, hnull, herror⟩ := Ty.plain_of_isNumeric shape numeric
    rw [step_to_nullable he hsame hnever hnull herror, hstrip]
    exact hinner shape numeric false
  | @nullable base' p shape inner numeric =>
    cases hsame : a.same e with
    | true =>
      have hp : p = q := by
        rw [Ty.same_eq, shape, he] at hsame
        have hbases : base'.same base = true := hsame
        rw [Ty.same_eq, inner, hbase] at hbases
        exact eq_of_beq hbases
      refine ⟨.ok (), ?_, ?_⟩
      · rw [step, Ty.beq_eq_same, hsame]
        rfl
      · rw [hp, Numbers.fits_self]
        rfl
    | false =>
      have hstrip : a.stripNullable = base' := by rw [Ty.stripNullable, shape]
      have hplain : a.isNever = false ∧ a.isNull = false ∧ a.isError = false := by
        simp [Ty.isNever, Ty.isNull, Ty.isError, Ty.isPrimitive, Ty.primitive?, Ty.problem?, shape]
      rw [step_to_nullable he hsame hplain.1 hplain.2.1 hplain.2.2, hstrip]
      exact hinner inner numeric true

/-- `step` on types of numbers tells whether the values of one `fits` the other. -/
theorem step_numbers (hc : c.compare = inner.step) {m n : Numbers} (ha : a.numbers? = some m)
    (he : e.numbers? = some n) : ∃ v, c.step assumed a e = pure v ∧ v.holds = m.fits n := by
  rcases (Ty.holdsNumbers he).prim_or_nullable with ⟨q, hq, hany, hn⟩ | ⟨base, q, hq, hbase, hnumeric, rfl⟩
  · rcases (Ty.holdsNumbers ha).prim_or_nullable with ⟨p, hp, -⟩ | ⟨base, p, hp, -, -, rfl⟩
    · rw [step_prims hp hq hany, (Ty.holdsNumbers ha).fits_prims (Ty.holdsNumbers he) hp hq]
      split
      · next hfits => exact ⟨.ok (), rfl, (decide_eq_true hfits).symm⟩
      · next hfits => exact ⟨.error _, rfl, (decide_eq_false hfits).symm⟩
    · refine ⟨_, step_of_nullable hp hq hany, ?_⟩
      rcases hn with hn | hn <;> simp [Numbers.fits, hn, Verdict.holds]
  · exact step_numbers_nullable hc ha hq hbase hnumeric

end Comparer

/-- `compareUnresolved` accepts types of numbers exactly if their values `fits`. -/
theorem compareUnresolved_numbers {a e : Ty} {m n : Numbers} (ha : a.numbers? = some m) (he : e.numbers? = some n) :
    compareUnresolved a e = .ok (.ok ()) ↔ m.fits n = true := by
  obtain ⟨depth, hdepth⟩ : ∃ depth, a.size + e.size = depth + 2 := by
    have ha := a.size_pos
    have he := e.size_pos
    exact ⟨a.size + e.size - 2, by omega⟩
  have hinner : (Comparer.ofResolver .unknown (depth + 1)).compare = (Comparer.ofResolver .unknown depth).step := rfl
  obtain ⟨v, hv, hholds⟩ := Comparer.step_numbers (c := .ofResolver .unknown (depth + 1)) hinner ha he
  have hverdict : compareUnresolved a e = .ok v := by
    apply compareUnresolved_eq
    rw [hdepth]
    show ((Comparer.ofResolver .unknown (depth + 1)).step [] a e).run () = .ok (v, ())
    rw [hv]
    rfl
  rw [hverdict, Except.ok.injEq, ← hholds]
  cases v with
  | ok => simp [Verdict.holds]
  | error why => simp [Verdict.holds]

end Ascribe
