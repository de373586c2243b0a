import Ascribe.Proofs.Assignability.Unresolved
import Ascribe.Proofs.Primitive
import Ascribe.Proofs.Ty.Structural

/-!
# Assignability of structural types is transitive

On structural types the rules of assignability come down to a few cases: the two types are the same, the
first is `never`, the second is nullable and so perhaps is the first (`Lifted`), or neither is nullable and both
are of one kind (`Alike`). The rule that compares texts never applies, since types of different kinds have
different texts.

Each case composes with each, as long as assignability composes at the parts (`TransitiveOn`). Parameters
of functions are related the other way round, so composition at the parts is asked for in both directions.
Parts are smaller than types, which gives transitivity by induction on the sizes of all three types.

## Key results

- `Assignability.rule_iff_lifted`: the rules on structural types
- `Assignability.Alike.trans`: types of one kind compose if their parts do
- `Assignability.assignable_trans`: assignability of structural types is transitive
- `compareUnresolved_trans`: comparisons of structural types compose
-/

namespace Ascribe

open Ty

/-- `List.Forall₂` relations compose if they do at the elements. -/
theorem forall₂_trans {α β γ : Type} {R : α → β → Prop} {S : β → γ → Prop} {T : α → γ → Prop}
    {xs : List α} {ys : List β} {zs : List γ} (hxy : List.Forall₂ R xs ys) (hyz : List.Forall₂ S ys zs)
    (h : ∀ x ∈ xs, ∀ y ∈ ys, ∀ z ∈ zs, R x y → S y z → T x z) : List.Forall₂ T xs zs := by
  induction hxy generalizing zs with
  | nil =>
    cases hyz
    exact .nil
  | cons hhead _ ih =>
    cases hyz with
    | cons hhead' htail' =>
      refine .cons ?_ (ih htail' fun x hx y hy z hz => ?_)
      · exact h _ List.mem_cons_self _ List.mem_cons_self _ List.mem_cons_self hhead hhead'
      · exact h x (.tail _ hx) y (.tail _ hy) z (.tail _ hz)

namespace Assignability

variable {R : Ty → Ty → Prop} {a b c e : Ty}

/-- Two types of one kind whose parts are related by the rule for that kind. -/
inductive Alike (R : Ty → Ty → Prop) (a e : Ty) : Prop
  | prim {p q : Primitive} (ha : a.shape = .prim p) (he : e.shape = .prim q) (h : p.coercesTo q = true)
  | array {x y : Ty} (ha : a.shape = .array x) (he : e.shape = .array y) (h : Fits R x y)
  | tuple {xs ys : List Ty} (ha : a.shape = .tuple xs) (he : e.shape = .tuple ys) (h : List.Forall₂ R xs ys)
  | struct {x y : StructBody Ty} (ha : a.shape = .struct x) (he : e.shape = .struct y) (h : FieldsFit R x y)
  | interface {x y : InterfaceBody Ty} (ha : a.shape = .interface x) (he : e.shape = .interface y)
    (h : Conforms R x.methods y.methods)
  | fn {x y : Signature Ty} (ha : a.shape = .fn x) (he : e.shape = .fn y) (h : SignatureFits R x y)

theorem interfaceMethods_eq {f : Unfolding} {body : InterfaceBody Ty} (h : a.isStructural = true)
    (ha : a.shape = .interface body) : f.interfaceMethods body = body.methods := by
  have hlayer := (everywhere_iff.mp h).1
  simp only [isStructuralLayer, ha, Bool.and_eq_true, List.isEmpty_iff] at hlayer
  simp [Unfolding.interfaceMethods, Unfolding.inherited, hlayer.1]

theorem structural_iff_alike {f : Unfolding} (ha : a.isStructural = true) (he : e.isStructural = true)
    (hna : a.isNullable = false) (hne : e.isNullable = false) : Structural f R a e ↔ Alike R a e := by
  have hka := kind?_eq_ofText ha hna
  have hke := kind?_eq_ofText he hne
  constructor
  · unfold Structural
    split
    case h_1 hsa hse => exact .prim hsa hse
    case h_7 hsa hse => exact .array hsa hse
    case h_8 hsa hse => exact .tuple hsa hse
    case h_9 hsa hse => exact .struct hsa hse
    case h_11 hsa hse =>
      rw [interfaceMethods_eq ha hsa, interfaceMethods_eq he hse]
      exact .interface hsa hse
    case h_15 hsa hse => exact .fn hsa hse
    case h_17 hprim harray htuple hstruct _ hinterface _ _ _ hfn _ =>
      -- the texts are equal, and so are the kinds they show
      intro htext
      exfalso
      rw [htext] at hka
      cases hk : Kind.ofText e.text.toList
      all_goals
        rw [hk] at hka hke
        obtain ⟨x, hsa⟩ := Shape.of_kind? hka
        obtain ⟨y, hse⟩ := Shape.of_kind? hke
      · exact hprim x y hsa hse
      · exact harray x y hsa hse
      · exact htuple x y hsa hse
      · exact hstruct x y hsa hse
      · exact hinterface x y hsa hse
      · exact hfn x y hsa hse
    all_goals simp_all [Shape.kind?]
  · intro h
    cases h with
    | prim hsa hse h => simpa only [Structural, hsa, hse] using h
    | array hsa hse h => simpa only [Structural, hsa, hse] using h
    | tuple hsa hse h => simpa only [Structural, hsa, hse] using h
    | struct hsa hse h => simpa only [Structural, hsa, hse] using h
    | interface hsa hse h =>
      simpa only [Structural, hsa, hse, interfaceMethods_eq ha hsa, interfaceMethods_eq he hse] using h
    | fn hsa hse h => simpa only [Structural, hsa, hse] using h

/-- The rules on structural types: they are the same, the first is `never`, the second is nullable and so
perhaps is the first, or neither is nullable and they are of one kind. -/
inductive Lifted (R : Ty → Ty → Prop) (a e : Ty) : Prop
  | same (h : a.same e = true)
  | never (h : a.isNever = true)
  | null {y : Ty} (ha : a.isNull = true) (he : e.shape = .nullable y)
  | both {x y : Ty} (ha : a.shape = .nullable x) (he : e.shape = .nullable y) (h : R x y)
  | wrapped {y : Ty} (ha : a.isNullable = false) (he : e.shape = .nullable y) (h : R a y)
  | alike (ha : a.isNullable = false) (he : e.isNullable = false) (h : Alike R a e)

/-- A type is assignable to a nullable type if it is `null`, or if it is assignable to the base, without
being nullable itself. -/
theorem proper_nullable_iff {f : Unfolding} {y : Ty} (he : e.shape = .nullable y) :
    Proper f R a e ↔
      a.isNull = true ∨ (∃ x, a.shape = .nullable x ∧ R x y) ∨ (a.isNullable = false ∧ R a y) := by
  unfold Proper
  rw [he]
  cases hsa : a.shape with
  | prim p => cases p <;> simp [isNull, isPrimitive, primitive?, isNullable, hsa]
  | _ => simp [isNull, isPrimitive, primitive?, isNullable, hsa]

/-- `Proper` on structural types that are not nullable is `Alike`. -/
theorem proper_iff_alike {f : Unfolding} (ha : a.isStructural = true) (he : e.isStructural = true)
    (hne : e.isNullable = false) : Proper f R a e ↔ a.isNullable = false ∧ Alike R a e := by
  have hnotNullable : ∀ y, e.shape ≠ .nullable y := by
    intro y hse
    simp [isNullable, hse] at hne
  have hnotNamed : ∀ r, e.shape ≠ .ref r := by
    intro r hse
    have hnone := reference?_eq_none he
    rw [reference?_eq_some.mpr hse] at hnone
    cases hnone
  unfold Proper
  split
  case h_1 hse => exact absurd hse (hnotNullable _)
  case h_2 hse => exact absurd hse (hnotNullable _)
  case h_3 hse _ _ => exact absurd hse (hnotNullable _)
  case h_4 hsa _ => simp [isNullable, hsa]
  case h_5 hse => exact absurd hse (hnotNamed _)
  case h_6 hse => exact absurd hse (hnotNamed _)
  case h_7 hnotNullable' _ _ _ _ _ =>
    have hna : a.isNullable = false := by
      rw [← Bool.not_eq_true, isNullable_eq_true_iff]
      rintro ⟨x, hsa⟩
      exact hnotNullable' x hsa
    rw [General, reference?_eq_none ha, reference?_eq_none he, hna, eq_self, true_and]
    exact structural_iff_alike ha he hna hne

theorem rule_iff_lifted {f : Unfolding} (ha : a.isStructural = true) (he : e.isStructural = true) :
    Rule f R a e ↔ Lifted R a e := by
  have hrule : Rule f R a e ↔ a.same e = true ∨ a.isNever = true ∨ Proper f R a e := by
    simp [Rule, isError_eq_false ha, isError_eq_false he, isAny_eq_false he]
  rw [hrule]
  constructor
  · rintro (hsame | hnever | hproper)
    · exact .same hsame
    · exact .never hnever
    cases hne : e.isNullable with
    | false =>
      obtain ⟨hna, halike⟩ := (proper_iff_alike ha he hne).mp hproper
      exact .alike hna hne halike
    | true =>
      obtain ⟨y, hse⟩ := isNullable_eq_true_iff.mp hne
      rcases (proper_nullable_iff hse).mp hproper with hnull | ⟨x, hsa, h⟩ | ⟨hna, h⟩
      · exact .null hnull hse
      · exact .both hsa hse h
      · exact .wrapped hna hse h
  · intro h
    cases h with
    | same h => exact .inl h
    | never h => exact .inr (.inl h)
    | null hnull hse => exact .inr (.inr ((proper_nullable_iff hse).mpr (.inl hnull)))
    | both hsa hse h => exact .inr (.inr ((proper_nullable_iff hse).mpr (.inr (.inl ⟨_, hsa, h⟩))))
    | wrapped hna hse h => exact .inr (.inr ((proper_nullable_iff hse).mpr (.inr (.inr ⟨hna, h⟩))))
    | alike hna hne h => exact .inr (.inr ((proper_iff_alike ha he hne).mpr ⟨hna, h⟩))

/-! ## Composition -/

/-- Assignability composes at these types, in both directions. -/
def TransitiveOn (R : Ty → Ty → Prop) (xs ys zs : List Ty) : Prop :=
  ∀ x ∈ xs, ∀ y ∈ ys, ∀ z ∈ zs, (R x y → R y z → R x z) ∧ (R z y → R y x → R z x)

theorem TransitiveOn.mono {xs xs' ys ys' zs zs' : List Ty} (h : TransitiveOn R xs ys zs) (hx : xs' ⊆ xs)
    (hy : ys' ⊆ ys) (hz : zs' ⊆ zs) : TransitiveOn R xs' ys' zs' :=
  fun x hx' y hy' z hz' => h x (hx hx') y (hy hy') z (hz hz')

theorem SignatureFits.trans {x y z : Signature Ty} (h : TransitiveOn R x.parts y.parts z.parts)
    (hxy : SignatureFits R x y) (hyz : SignatureFits R y z) : SignatureFits R x z := by
  have param {s : Signature Ty} {p : Param Ty} (hp : p ∈ s.params) : p.type ∈ s.parts :=
    List.mem_append_left _ (List.mem_map.mpr ⟨p, hp, rfl⟩)
  have result (s : Signature Ty) : s.result ∈ s.parts := List.mem_append_right _ List.mem_cons_self
  refine ⟨hxy.1.trans hyz.1, ?_, ?_⟩
  · refine forall₂_trans hxy.2.1 hyz.2.1 fun p hp q hq r hr hqp hrq => ?_
    exact (h _ (param hp) _ (param hq) _ (param hr)).2 hrq hqp
  · exact (h _ (result x) _ (result y) _ (result z)).1 hxy.2.2 hyz.2.2

theorem FieldsFit.trans {x y z : StructBody Ty}
    (h : TransitiveOn R (x.fields.map (·.type)) (y.fields.map (·.type)) (z.fields.map (·.type)))
    (hxy : FieldsFit R x y) (hyz : FieldsFit R y z) : FieldsFit R x z := by
  have type {s : StructBody Ty} {f : Field Ty} (hf : f ∈ s.fields) : f.type ∈ s.fields.map (·.type) :=
    List.mem_map.mpr ⟨f, hf, rfl⟩
  intro field hfield
  obtain ⟨middle, hmiddle, htypes⟩ := hyz field hfield
  have hname : middle.name = field.name := by
    simpa using List.find?_some hmiddle
  have hmem := List.mem_of_find?_eq_some hmiddle
  obtain ⟨found, hfound, htypes'⟩ := hxy middle hmem
  refine ⟨found, hname ▸ hfound, ?_⟩
  have hmem' := List.mem_of_find?_eq_some hfound
  exact (h _ (type hmem') _ (type hmem) _ (type hfield)).1 htypes' htypes

theorem Conforms.trans {xs ys zs : List (Method Ty)}
    (h : TransitiveOn R (xs.flatMap (·.signature.parts)) (ys.flatMap (·.signature.parts))
      (zs.flatMap (·.signature.parts)))
    (hx : ∀ m ∈ xs, m.names.aliases = []) (hy : ∀ m ∈ ys, m.names.aliases = [])
    (hz : ∀ m ∈ zs, m.names.aliases = []) (hxy : Conforms R xs ys) (hyz : Conforms R ys zs) :
    Conforms R xs zs := by
  have parts {ms : List (Method Ty)} {m : Method Ty} (hm : m ∈ ms) :
      m.signature.parts ⊆ ms.flatMap (·.signature.parts) :=
    fun t ht => List.mem_flatMap.mpr ⟨m, hm, ht⟩
  -- methods with one name each share a name if it is the same
  have single {m n : Method Ty} (hm : m.names.aliases = []) (hn : n.names.aliases = []) :
      m.names.overlaps n.names = true ↔ m.names.primary = n.names.primary := by
    simp [MethodNames.overlaps, MethodNames.contains, MethodNames.toList, hm, hn]
  intro method hmethod
  obtain ⟨middle, hmiddle, hnames, hsignature⟩ := hyz method hmethod
  obtain ⟨found, hfound, hnames', hsignature'⟩ := hxy middle hmiddle
  rw [single (hy _ hmiddle) (hz _ hmethod)] at hnames
  rw [single (hx _ hfound) (hy _ hmiddle)] at hnames'
  refine ⟨found, hfound, ?_, ?_⟩
  · rw [single (hx _ hfound) (hz _ hmethod), hnames', hnames]
  · exact hsignature'.trans (h.mono (parts hfound) (parts hmiddle) (parts hmethod)) hsignature

section Same

variable (hR : ∀ a e : Ty, R a.erase e.erase ↔ R a e)

include hR

theorem Fits.trans {x y z : Ty} (hy : y.isStructural = true) (h : R x y → R y z → R x z)
    (hxy : Fits R x y) (hyz : Fits R y z) : Fits R x z := by
  rcases hxy with hsame | hnever | herror | ⟨hx, hprim, hxy⟩
  · rw [← fits_erase hR, (same_iff_erase_eq x y).mp hsame, fits_erase hR]
    exact hyz
  · exact .inr (.inl hnever)
  · rw [isError_eq_false hy] at herror
    exact nomatch herror
  · rcases hyz with hsame | hnever | herror | ⟨-, hz, hyz⟩
    · rw [← fits_erase hR, ← (same_iff_erase_eq y z).mp hsame, fits_erase hR]
      exact .inr (.inr (.inr ⟨hx, hprim, hxy⟩))
    · simp [isNever, isPrimitive, hprim] at hnever
    · exact .inr (.inr (.inl herror))
    · exact .inr (.inr (.inr ⟨hx, hz, h hxy hyz⟩))

/-- `Alike` composes if the parts do. -/
theorem Alike.trans (ha : a.isStructural = true) (hb : b.isStructural = true) (hc : c.isStructural = true)
    (h : TransitiveOn R a.shape.parts b.shape.parts c.shape.parts) (hab : Alike R a b) (hbc : Alike R b c) :
    Alike R a c := by
  cases hab with
  | prim hsa hsb hab =>
    cases hbc with
    | prim hsb' hsc hbc =>
      obtain rfl := Shape.prim.inj (hsb.symm.trans hsb')
      exact .prim hsa hsc (Primitive.coercesTo_trans hab hbc)
    | _ hsb' => exact nomatch hsb.symm.trans hsb'
  | array hsa hsb hab =>
    cases hbc with
    | array hsb' hsc hbc =>
      obtain rfl := Shape.array.inj (hsb.symm.trans hsb')
      rw [hsa, hsb, hsc] at h
      have hmiddle := isStructural_of_mem_parts hb (by rw [hsb]; exact List.mem_cons_self)
      have hparts := h _ List.mem_cons_self _ List.mem_cons_self _ List.mem_cons_self
      exact .array hsa hsc (Fits.trans hR hmiddle hparts.1 hab hbc)
    | _ hsb' => exact nomatch hsb.symm.trans hsb'
  | tuple hsa hsb hab =>
    cases hbc with
    | tuple hsb' hsc hbc =>
      obtain rfl := Shape.tuple.inj (hsb.symm.trans hsb')
      rw [hsa, hsb, hsc] at h
      exact .tuple hsa hsc (forall₂_trans hab hbc fun x hx y hy z hz => (h x hx y hy z hz).1)
    | _ hsb' => exact nomatch hsb.symm.trans hsb'
  | struct hsa hsb hab =>
    cases hbc with
    | struct hsb' hsc hbc =>
      obtain rfl := Shape.struct.inj (hsb.symm.trans hsb')
      rw [hsa, hsb, hsc] at h
      exact .struct hsa hsc (hab.trans h hbc)
    | _ hsb' => exact nomatch hsb.symm.trans hsb'
  | interface hsa hsb hab =>
    cases hbc with
    | interface hsb' hsc hbc =>
      obtain rfl := Shape.interface.inj (hsb.symm.trans hsb')
      rw [hsa, hsb, hsc] at h
      have hmethods := h.mono (List.subset_append_left _ _) (List.subset_append_left _ _)
        (List.subset_append_left _ _)
      exact .interface hsa hsc (hab.trans hmethods (aliases_eq_nil ha hsa) (aliases_eq_nil hb hsb)
        (aliases_eq_nil hc hsc) hbc)
    | _ hsb' => exact nomatch hsb.symm.trans hsb'
  | fn hsa hsb hab =>
    cases hbc with
    | fn hsb' hsc hbc =>
      obtain rfl := Shape.fn.inj (hsb.symm.trans hsb')
      rw [hsa, hsb, hsc] at h
      exact .fn hsa hsc (hab.trans h hbc)
    | _ hsb' => exact nomatch hsb.symm.trans hsb'

end Same

theorem assignable_iff_lifted {f : Unfolding} (ha : a.isStructural = true) (he : e.isStructural = true) :
    Assignable f a e ↔ Lifted (Assignable f) a e :=
  rule_iff_assignable.symm.trans (rule_iff_lifted ha he)

/-- `Lifted` relates a nullable type to another nullable type at most. -/
theorem Lifted.of_nullable {y : Ty} (hb : b.shape = .nullable y) (h : Lifted R b c) :
    b.same c = true ∨ ∃ z, c.shape = .nullable z ∧ R y z := by
  have hnullable : b.isNullable = true := isNullable_eq_true_iff.mpr ⟨y, hb⟩
  cases h with
  | same h => exact .inl h
  | never h => simp [isNever, isPrimitive, primitive?, hb] at h
  | null h => simp [isNull, isPrimitive, primitive?, hb] at h
  | both hb' hc h =>
    obtain rfl := Shape.nullable.inj (hb.symm.trans hb')
    exact .inr ⟨_, hc, h⟩
  | wrapped hnb => simp [hnullable] at hnb
  | alike hnb => simp [hnullable] at hnb

/-- `Alike` relates nothing else to a primitive that is not numeric. -/
theorem Alike.isPrimitive {p : Primitive} (hp : p.isNumeric = false) (h : Alike R a b)
    (hb : b.isPrimitive p = true) : a.isPrimitive p = true := by
  cases h with
  | prim hsa hsb h =>
    simp only [Ty.isPrimitive, primitive?, hsa, hsb, beq_iff_eq, Option.some.injEq] at hb ⊢
    exact Primitive.eq_of_coercesTo (hb ▸ h) hp
  | _ hsa hsb => simp [Ty.isPrimitive, primitive?, hsb] at hb

/-- `Assignable` between structural types is transitive, if it is between smaller ones. -/
theorem assignable_trans_of_smaller (ha : a.isStructural = true) (hb : b.isStructural = true)
    (hc : c.isStructural = true)
    (ih : ∀ x y z : Ty, x.size + y.size + z.size < a.size + b.size + c.size → x.isStructural = true →
      y.isStructural = true → z.isStructural = true → Assignable .itself x y → Assignable .itself y z →
      Assignable .itself x z)
    (hab : Assignable .itself a b) (hbc : Assignable .itself b c) : Assignable .itself a c := by
  have hparts : TransitiveOn (Assignable .itself) a.shape.parts b.shape.parts c.shape.parts := by
    intro x hx y hy z hz
    have hsx := isStructural_of_mem_parts ha hx
    have hsy := isStructural_of_mem_parts hb hy
    have hsz := isStructural_of_mem_parts hc hz
    have := size_lt_of_mem_parts hx
    have := size_lt_of_mem_parts hy
    have := size_lt_of_mem_parts hz
    exact ⟨ih x y z (by omega) hsx hsy hsz, ih z y x (by omega) hsz hsy hsx⟩
  have hbase {t base : Ty} (hs : t.isStructural = true) (ht : t.shape = .nullable base) :
      base.isStructural = true ∧ base.size < t.size := by
    have hmem : base ∈ t.shape.parts := by
      rw [ht]
      exact List.mem_cons_self
    exact ⟨isStructural_of_mem_parts hs hmem, size_lt_of_mem_parts hmem⟩
  by_cases hsame : b.same c = true
  · rwa [← assignable_congr Unfolding.itself_respects (same_refl a) hsame]
  have hnext := (assignable_iff_lifted hb hc).mp hbc
  rw [assignable_iff_lifted ha hc]
  -- by the rule for the first pair; if the middle type is nullable, so is the last one
  cases (assignable_iff_lifted ha hb).mp hab with
  | same hsame' =>
    rw [← assignable_iff_lifted ha hc, assignable_congr Unfolding.itself_respects hsame' (same_refl c)]
    exact hbc
  | never hnever => exact .never hnever
  | null hnull hsb =>
    obtain ⟨z, hsc, -⟩ := (hnext.of_nullable hsb).resolve_left hsame
    exact .null hnull hsc
  | both hsa hsb hxy =>
    obtain ⟨z, hsc, hyz⟩ := (hnext.of_nullable hsb).resolve_left hsame
    obtain ⟨hsx, hx⟩ := hbase ha hsa
    obtain ⟨hsy, hy⟩ := hbase hb hsb
    obtain ⟨hsz, hz⟩ := hbase hc hsc
    exact .both hsa hsc (ih _ _ _ (by omega) hsx hsy hsz hxy hyz)
  | wrapped hna hsb hay =>
    obtain ⟨z, hsc, hyz⟩ := (hnext.of_nullable hsb).resolve_left hsame
    obtain ⟨hsy, hy⟩ := hbase hb hsb
    obtain ⟨hsz, hz⟩ := hbase hc hsc
    exact .wrapped hna hsc (ih _ _ _ (by omega) ha hsy hsz hay hyz)
  | alike hna hnb halike =>
    cases hnext with
    | same h => exact absurd h hsame
    | never hnever => exact .never (halike.isPrimitive rfl hnever)
    | null hnull hsc => exact .null (halike.isPrimitive rfl hnull) hsc
    | both hsb => simp [isNullable, hsb] at hnb
    | wrapped _ hsc hbz =>
      obtain ⟨hsz, hz⟩ := hbase hc hsc
      exact .wrapped hna hsc (ih _ _ _ (by omega) ha hb hsz hab hbz)
    | alike _ hnc halike' =>
      have herase := assignable_erase Unfolding.itself_respects
      exact .alike hna hnc (halike.trans herase ha hb hc hparts halike')

/-- `Assignable` between structural types is transitive. -/
theorem assignable_trans (ha : a.isStructural = true) (hb : b.isStructural = true)
    (hc : c.isStructural = true) (hab : Assignable .itself a b) (hbc : Assignable .itself b c) :
    Assignable .itself a c := by
  -- by induction on the sizes of the three types together, since parameters change places
  induction hn : a.size + b.size + c.size using Nat.strong_induction_on generalizing a b c with
  | _ n ih =>
    subst hn
    refine assignable_trans_of_smaller ha hb hc ?_ hab hbc
    intro x y z hsize hx hy hz hxy hyz
    exact ih _ hsize hx hy hz hxy hyz rfl

end Assignability

/-- `compareUnresolved` composes on structural types: if the first type is accepted where the second is expected, and
the second where the third is, then the first is accepted where the third is. -/
theorem compareUnresolved_trans {a b c : Ty} (ha : a.isStructural = true) (hb : b.isStructural = true)
    (hc : c.isStructural = true) (hab : compareUnresolved a b = .ok (.ok ()))
    (hbc : compareUnresolved b c = .ok (.ok ())) : compareUnresolved a c = .ok (.ok ()) := by
  rw [compareUnresolved_accepts_iff] at hab hbc ⊢
  exact Assignability.assignable_trans ha hb hc hab hbc

/-- Three interfaces with a method `draw`. From one to the next its parameter narrows, from `f64?` to `i32?` to
`i16`, and its result loses a field and widens, from `u8` to `u16` to `i64?`. -/
def drawing (n : Nat) : Ty :=
  .of (.interface { methods := [{
    names := ⟨"draw", []⟩
    signature := {
      params := [{ name := "at", type :=
        if n = 0 then .nullable (.prim .f64) else if n = 1 then .nullable (.prim .i32) else .prim .i16 }]
      result := .struct ({ name := "x", type :=
        if n = 0 then .prim .u8 else if n = 1 then .prim .u16 else .nullable (.prim .i64) } ::
          if n = 0 then [{ name := "label", type := .string }] else []) false } }] })

theorem drawing_accepted :
    ((drawing 0).isStructural = true ∧ (drawing 1).isStructural = true ∧ (drawing 2).isStructural = true) ∧
      compareUnresolved (drawing 0) (drawing 1) = .ok (.ok ()) ∧
      compareUnresolved (drawing 1) (drawing 2) = .ok (.ok ()) ∧
      compareUnresolved (drawing 0) (drawing 2) = .ok (.ok ()) := by
  have hstructural : (drawing 0).isStructural = true ∧ (drawing 1).isStructural = true ∧
      (drawing 2).isStructural = true := by decide +kernel
  have hfirst : compareUnresolved (drawing 0) (drawing 1) = .ok (.ok ()) := rfl
  have hsecond : compareUnresolved (drawing 1) (drawing 2) = .ok (.ok ()) := rfl
  refine ⟨hstructural, hfirst, hsecond, ?_⟩
  exact compareUnresolved_trans hstructural.1 hstructural.2.1 hstructural.2.2 hfirst hsecond

end Ascribe
