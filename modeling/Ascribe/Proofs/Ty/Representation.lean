import Mathlib.Algebra.Ring.Nat
import Ascribe.Proofs.Primitive
import Ascribe.Ty.Enum

/-!
# The type that represents an enumeration

Without a named representation, the values of the cases are held against the integer types with a sign if one of them
is negative, else against those without, narrowest first. The first type that holds all of them is taken
(`EnumBody.smallest?`). Since the types are tried by width, what is found is the smallest type for the cases, however
given values and positions are mixed.

If nothing is found, `i64` is taken. That needs a value that the last type tried does not hold, so it never happens for
given values of 64 bits and fewer than 2 ^ 63 cases.

## Key results

- `EnumBody.mem_values`: the values of cases by their positions
- `EnumBody.smallest_of_smallest?`: what is found is the smallest type
- `EnumBody.smallest?_isSome`: something is found
- `EnumBody.reprFor_smallest`: the representation is what is found, hence the smallest type
-/

namespace Ascribe

/-! ## Integer types of one sign -/

namespace Primitive

variable {p q : Primitive} {signed : Bool} {value : Int}

/-- Having fewer bits. -/
def NarrowerThan (p q : Primitive) : Prop :=
  ∃ width ∈ p.width?, ∃ width' ∈ q.width?, width < width'

instance (p q : Primitive) : Decidable (p.NarrowerThan q) :=
  inferInstanceAs (Decidable (∃ width ∈ p.width?, ∃ width' ∈ q.width?, width < width'))

theorem not_narrowerThan_self (p : Primitive) : ¬ p.NarrowerThan p := by
  rintro ⟨width, hwidth, width', hwidth', hlt⟩
  obtain rfl := Option.mem_unique hwidth hwidth'
  exact Nat.lt_irrefl width hlt

/-- The integer types that have a sign, or those that have none. -/
def integersOf (signed : Bool) : List Primitive :=
  integers.filter (·.isSigned == signed)

theorem mem_integersOf : p ∈ integersOf signed ↔ p.isInteger = true ∧ p.isSigned = signed := by
  have hintegers : p ∈ integers ↔ p.isInteger = true := by
    cases p <;> decide
  simp [integersOf, hintegers]

theorem integersOf_eq (signed : Bool) :
    integersOf signed = if signed then [.i8, .i16, .i32, .i64] else [.u8, .u16, .u32, .u64] := by
  cases signed <;> rfl

/-- `integersOf` lists a wider type later (`NarrowerThan`). -/
theorem integersOf_sorted (signed : Bool) : (integersOf signed).Pairwise fun p q => ¬ q.NarrowerThan p := by
  cases signed <;> decide

/-- The first type of `integersOf` that passes a test is the narrowest one that does. -/
theorem eq_false_of_find?_integersOf {test : Primitive → Bool} (h : (integersOf signed).find? test = some p)
    (hq : q ∈ integersOf signed) (hnarrower : q.NarrowerThan p) : test q = false := by
  obtain ⟨-, before, after, hsplit, hbefore⟩ := List.find?_eq_some_iff_append.mp h
  have hsorted := integersOf_sorted signed
  rw [hsplit] at hq hsorted
  obtain ⟨-, hsorted, -⟩ := List.pairwise_append.mp hsorted
  -- a narrower type stands before the one that is found, where every type fails the test
  rcases List.mem_append.mp hq with hq | hq
  · simpa using hbefore q hq
  · rcases List.mem_cons.mp hq with rfl | hq
    · exact absurd hnarrower q.not_narrowerThan_self
    · exact absurd hnarrower (List.rel_of_pairwise_cons hsorted hq)

theorem holds_i64_iff : Holds .i64 value ↔ -2 ^ 63 ≤ value ∧ value < 2 ^ 63 := by
  simp [Holds, isInteger, width?, isSigned]

/-- `u64` holds what `i64` does, but for negative values. -/
theorem Holds.u64_of_i64 (h : Holds .i64 value) (hvalue : 0 ≤ value) : Holds .u64 value := by
  rw [holds_i64_iff] at h
  rw [← fits_iff_holds]
  simp only [fits, range?, Bool.and_eq_true, decide_eq_true_eq]
  omega

end Primitive

namespace EnumBody

variable {cases : List EnumCase} {p : Primitive} {value : Int}

/-! ## Values of cases -/

/-- A value of some cases: what is given for a case, or else its position. -/
def HasValue (cases : List EnumCase) (value : Int) : Prop :=
  ∃ (position : Nat) (c : EnumCase), cases[position]? = some c ∧ c.value.getD position = value

theorem mem_values {start : Nat} :
    value ∈ values start cases ↔
      ∃ (position : Nat) (c : EnumCase), cases[position]? = some c ∧ c.value.getD ↑(start + position) = value := by
  -- the rest starts one later, so a position in it is one less
  induction cases generalizing start with
  | nil => simp [values]
  | cons first rest ih =>
    rw [values, List.mem_cons, ih]
    constructor
    · rintro (rfl | ⟨position, c, hc, rfl⟩)
      · exact ⟨0, first, rfl, rfl⟩
      · exact ⟨position + 1, c, hc, by rw [Nat.add_right_comm, Nat.add_assoc]⟩
    · rintro ⟨_ | position, c, hc, rfl⟩
      · obtain rfl := Option.some.inj hc
        exact .inl rfl
      · exact .inr ⟨position, c, hc, by rw [Nat.add_right_comm, Nat.add_assoc]⟩

theorem mem_values_zero : value ∈ values 0 cases ↔ HasValue cases value := by
  simp [mem_values, HasValue]

theorem all_fits_iff : (values 0 cases).all p.fits = true ↔ ∀ value, HasValue cases value → p.Holds value := by
  simp only [List.all_eq_true, mem_values_zero, Primitive.fits_iff_holds]

/-- Whether a value is negative. -/
def hasNegative (cases : List EnumCase) : Bool :=
  (values 0 cases).any (· < 0)

theorem hasNegative_iff : hasNegative cases = true ↔ ∃ value, HasValue cases value ∧ value < 0 := by
  simp only [hasNegative, List.any_eq_true, mem_values_zero, decide_eq_true_eq]

/-- `HasValue` gives values of 64 bits, if the given ones are and there are fewer than 2^63 cases. -/
theorem HasValue.holds_i64 (hwords : ∀ c ∈ cases, ∀ given ∈ c.value, Primitive.i64.Holds given)
    (hlength : cases.length < 2 ^ 63) (h : HasValue cases value) : Primitive.i64.Holds value := by
  obtain ⟨position, c, hc, rfl⟩ := h
  cases hgiven : c.value with
  | some given => exact hwords c (List.mem_of_getElem? hc) given hgiven
  | none =>
    obtain ⟨hposition, -⟩ := List.getElem?_eq_some_iff.mp hc
    rw [Primitive.holds_i64_iff, Option.getD_none]
    omega

/-! ## The smallest type -/

/-- The smallest type for some cases: it has a sign only if a value is negative, and among the integer types with that
sign, or without one, it is the narrowest that holds all values. -/
structure Smallest (cases : List EnumCase) (p : Primitive) : Prop where
  isInteger : p.isInteger = true
  isSigned_iff : p.isSigned = true ↔ ∃ value, HasValue cases value ∧ value < 0
  holds : ∀ value, HasValue cases value → p.Holds value
  narrowest : ∀ q : Primitive, q.isInteger = true → q.isSigned = p.isSigned → q.NarrowerThan p →
    ∃ value, HasValue cases value ∧ ¬ q.Holds value

/-- The first type that holds all values, of the integer types with the sign that the values need. -/
def smallest? (cases : List EnumCase) : Option Primitive :=
  (Primitive.integersOf (hasNegative cases)).find? fun p => (values 0 cases).all p.fits

/-- The representation is the type that is found, or `i64`. -/
theorem reprFor_eq_getD (cases : List EnumCase) : reprFor cases = (smallest? cases).getD .i64 := by
  rw [smallest?, Primitive.integersOf_eq]
  rfl

theorem smallest_of_smallest? (h : smallest? cases = some p) : Smallest cases p := by
  obtain ⟨hinteger, hsigned⟩ := Primitive.mem_integersOf.mp (List.mem_of_find?_eq_some h)
  refine ⟨hinteger, ?_, ?_, fun q hq hsign hnarrower => ?_⟩
  · rw [hsigned, hasNegative_iff]
  · exact all_fits_iff.mp (List.find?_some (p := fun p : Primitive => (values 0 cases).all p.fits) h)
  · have hmem := Primitive.mem_integersOf.mpr ⟨hq, hsign.trans hsigned⟩
    have hunfit := Primitive.eq_false_of_find?_integersOf h hmem hnarrower
    simpa only [← Bool.not_eq_true, all_fits_iff, not_forall, exists_prop] using hunfit

/-- `smallest?` finds a type for values of 64 bits, at the latest the widest one of the sign. -/
theorem smallest?_isSome (hwords : ∀ value, HasValue cases value → Primitive.i64.Holds value) :
    (smallest? cases).isSome = true := by
  rw [smallest?, List.find?_isSome]
  cases hnegative : hasNegative cases with
  | true => exact ⟨.i64, by decide, all_fits_iff.mpr hwords⟩
  | false =>
    refine ⟨.u64, by decide, all_fits_iff.mpr fun value hvalue => (hwords value hvalue).u64_of_i64 ?_⟩
    by_contra hlt
    have hsome : hasNegative cases = true := hasNegative_iff.mpr ⟨value, hvalue, Int.not_le.mp hlt⟩
    rw [hnegative] at hsome
    cases hsome

/-- The representation that is picked for fewer than 2 ^ 63 cases, with given values of 64 bits, is one that the search
finds, so `i64` is never taken for want of another, and it is the smallest type for the cases. -/
theorem reprFor_smallest (hwords : ∀ c ∈ cases, ∀ given ∈ c.value, Primitive.i64.Holds given)
    (hlength : cases.length < 2 ^ 63) :
    smallest? cases = some (reprFor cases) ∧ Smallest cases (reprFor cases) := by
  obtain ⟨p, hp⟩ := Option.isSome_iff_exists.mp (smallest?_isSome fun _ => HasValue.holds_i64 hwords hlength)
  have hrepr : reprFor cases = p := by
    rw [reprFor_eq_getD, hp, Option.getD_some]
  rw [hrepr]
  exact ⟨hp, smallest_of_smallest? hp⟩

/-- Cases with values on both sides of zero, one just past the least value of `i8` and one the greatest of `i16`, and
with a position between them. -/
def mixedCases : List EnumCase :=
  [{ name := "low", value := some (-129) }, { name := "next" }, { name := "high", value := some 32767 }]

theorem mixedCases_smallest :
    (∀ c ∈ mixedCases, ∀ given ∈ c.value, Primitive.i64.Holds given) ∧ mixedCases.length < 2 ^ 63 ∧
      reprFor mixedCases = .i16 ∧ smallest? mixedCases = some (reprFor mixedCases) ∧
      Smallest mixedCases (reprFor mixedCases) := by
  have hwords : ∀ c ∈ mixedCases, ∀ given ∈ c.value, Primitive.i64.Holds given := by
    simp only [← Primitive.fits_iff_holds]
    decide
  have hlength : mixedCases.length < 2 ^ 63 := by decide
  exact ⟨hwords, hlength, by decide, reprFor_smallest hwords hlength⟩

/-- Positions alone lead to a wider type once there are more cases than it has values. -/
example : reprFor (List.replicate 256 { name := "any" }) = .u8 ∧
    reprFor (List.replicate 257 { name := "any" }) = .u16 := by
  decide +kernel

end EnumBody

end Ascribe
