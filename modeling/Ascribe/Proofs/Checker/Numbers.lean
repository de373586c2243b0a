import Ascribe.Proofs.Assignability.Numbers
import Ascribe.Proofs.Checker.Session
import Ascribe.Proofs.Typing.Branches

/-!
# Branches of numbers

The common type of branches that are numbers, nullable numbers, `null` or `never`. Merging goes through the branches
from left to right, and yet neither their order nor how often a branch is repeated matters. Merging is tried only if no
branch is above all others, and then the number types meet in the narrowest one
(`Primitive.narrowest_foldlM_widen`). So what is found is characterised by which branches there are
(`Numbers.IsCommon`). No declaration is looked at and nothing is remembered.

## Key results

- `Typing.common_numbers`: the common type of number types is the narrowest one
- `Queries.commonType_isCommon`: the values of the common type of branches
- `Checker.commonType_numbers`: every checker finds it, and accepts every branch for it
-/

namespace Ascribe

/-! ## Searches that ask nothing -/

namespace Search

variable {σ α β : Type} {xs : List α}

theorem allM_eq_pure {check : α → Search σ Bool} {g : α → Bool} (h : ∀ x ∈ xs, check x = pure (g x)) :
    xs.allM check = pure (xs.all g) := by
  induction xs with
  | nil => rfl
  | cons x rest ih =>
    rw [List.forall_mem_cons] at h
    rw [List.allM, h.1, pure_bind, List.all_cons]
    cases g x with
    | true => exact ih h.2
    | false => rfl

theorem findM?_eq_pure {check : α → Search σ Bool} {g : α → Bool} (h : ∀ x ∈ xs, check x = pure (g x)) :
    xs.findM? check = pure (xs.find? g) := by
  induction xs with
  | nil => rfl
  | cons x rest ih =>
    rw [List.forall_mem_cons] at h
    rw [List.findM?, h.1, pure_bind, List.find?_cons]
    cases g x with
    | true => rfl
    | false => exact ih h.2

theorem mapM_eq_pure {f : α → Search σ β} {g : α → β} (h : ∀ x ∈ xs, f x = pure (g x)) :
    xs.mapM f = pure (xs.map g) := by
  induction xs with
  | nil => rfl
  | cons x rest ih =>
    rw [List.forall_mem_cons] at h
    rw [List.mapM_cons, h.1, pure_bind, ih h.2, pure_bind, List.map_cons]

end Search

/-! ## What branches of numbers have in common -/

/-- The values that branches of numbers have in common: null if one of them has it, and the narrowest of the number
types that all of their numbers convert to. -/
structure Numbers.IsCommon (branches : List Numbers) (m : Numbers) : Prop where
  hasNull : m.hasNull = branches.any (·.hasNull)
  none : m.number = none ↔ branches.filterMap (·.number) = []
  narrowest : ∀ r ∈ m.number, Primitive.Narrowest (branches.filterMap (·.number)) r

instance (branches : List Numbers) (m : Numbers) : Decidable (Numbers.IsCommon branches m) :=
  decidable_of_iff
    (m.hasNull = branches.any (·.hasNull) ∧ (m.number = none ↔ branches.filterMap (·.number) = []) ∧
      ∀ r ∈ m.number, Primitive.Narrowest (branches.filterMap (·.number)) r)
    ⟨fun h => ⟨h.1, h.2.1, h.2.2⟩, fun h => ⟨h.hasNull, h.none, h.narrowest⟩⟩

namespace Numbers.IsCommon

variable {branches branches' : List Numbers} {m m' : Numbers}

theorem unique (h : IsCommon branches m) (h' : IsCommon branches m') : m = m' := by
  obtain ⟨number, hasNull⟩ := m
  obtain ⟨number', hasNull'⟩ := m'
  obtain rfl : hasNull = hasNull' := h.hasNull.trans h'.hasNull.symm
  congr 1
  cases number with
  | none => exact (h'.none.mpr (h.none.mp rfl)).symm
  | some r =>
    cases number' with
    | none => exact h.none.mpr (h'.none.mp rfl)
    | some r' => rw [(h.narrowest r rfl).unique (h'.narrowest r' rfl)]

/-- `IsCommon` depends on neither the order nor the repetition of branches. -/
theorem congr (hmem : ∀ b, b ∈ branches ↔ b ∈ branches') (h : IsCommon branches m) : IsCommon branches' m := by
  have hnumbers (p : Primitive) :
      p ∈ branches.filterMap (·.number) ↔ p ∈ branches'.filterMap (·.number) := by
    simp only [List.mem_filterMap, hmem]
  constructor
  · rw [h.hasNull, Bool.eq_iff_iff]
    simp only [List.any_eq_true, hmem]
  · rw [h.none]
    simp only [List.eq_nil_iff_forall_not_mem, hnumbers]
  · intro r hr
    exact (h.narrowest r hr).congr hnumbers

/-- The values of every branch fit numbers that are `IsCommon` to the branches. -/
theorem fits (h : IsCommon branches m) {b : Numbers} (hb : b ∈ branches) : b.fits m = true := by
  have hnull : b.hasNull = true → m.hasNull = true := by
    intro hb'
    rw [h.hasNull]
    exact List.any_eq_true.mpr ⟨b, hb, hb'⟩
  have hnumber (p : Primitive) (hp : b.number = some p) : m.number.any p.coercesTo = true := by
    have hmem : p ∈ branches.filterMap (·.number) := List.mem_filterMap.mpr ⟨b, hb, hp⟩
    cases hr : m.number with
    | none => rw [h.none.mp hr] at hmem; cases hmem
    | some r => exact (h.narrowest r hr).above p hmem
  rw [fits_iff]
  exact ⟨hnull, hnumber⟩

end Numbers.IsCommon

/-- The answers are right about types of numbers. -/
def Queries.ComparesNumbers (q : Queries) : Prop :=
  ∀ (a e : Ty) (m n : Numbers), a.numbers? = some m → e.numbers? = some n →
    ∃ v, q.compare [] a e = pure v ∧ v.holds = m.fits n

namespace Typing

variable {q : Queries} {candidates : List Ty} {ps : List Primitive}

/-- Whether one number type converts to another. -/
def converts (a e : Ty) : Bool :=
  a.primitive?.any fun p => e.primitive?.any p.coercesTo

theorem assignable_numbers (hq : q.ComparesNumbers) {a e : Ty} (ha : a.isNumeric = true) (he : e.isNumeric = true) :
    q.assignable a e = pure (converts a e) := by
  obtain ⟨p, hp, hnumeric⟩ := (Option.any_eq_true _ _).mp ha
  obtain ⟨r, hr, hnumeric'⟩ := (Option.any_eq_true _ _).mp he
  obtain ⟨v, hv, hholds⟩ := hq a e _ _ (Ty.numbers?_number (Ty.primitive?_eq_some.mp hp) hnumeric)
    (Ty.numbers?_number (Ty.primitive?_eq_some.mp hr) hnumeric')
  show Verdict.holds <$> q.compare [] a e = _
  rw [hv, map_pure, hholds]
  simp [Numbers.fits, converts, hp, hr]

section Candidates

variable (hprims : candidates.mapM Ty.primitive? = some ps)

include hprims

/-- A candidate that all others convert to is the `Primitive.Narrowest` of all. -/
theorem narrowest_of_candidate {t : Ty} (ht : t ∈ candidates) (habove : ∀ x ∈ candidates, converts x t = true) :
    ∃ r, t.shape = .prim r ∧ Primitive.Narrowest ps r := by
  obtain ⟨hleft, hright⟩ := mem_of_mapM_eq_some hprims
  obtain ⟨r, hr, htr⟩ := hleft t ht
  refine ⟨r, Ty.primitive?_eq_some.mp htr, Primitive.narrowest_of_mem hr fun p hp => ?_⟩
  obtain ⟨x, hx, hxp⟩ := hright p hp
  simpa [converts, hxp, htr] using habove x hx

/-- Candidates none of which all others convert to meet in the `Primitive.Narrowest` type. -/
theorem narrowest_of_merged (hne : candidates ≠ []) (hnumeric : ∀ p ∈ ps, p.isNumeric = true)
    (hnone : ∀ t ∈ candidates, ¬ ∀ x ∈ candidates, converts x t = true) :
    ∃ head others r, ps = head :: others ∧ others.foldlM Primitive.widen head = some r ∧
      Primitive.Narrowest ps r := by
  obtain ⟨hleft, hright⟩ := mem_of_mapM_eq_some hprims
  obtain ⟨x, hx⟩ := List.exists_mem_of_ne_nil candidates hne
  obtain ⟨p, hp, -⟩ := hleft x hx
  obtain ⟨head, others, rfl⟩ := List.exists_cons_of_ne_nil (List.ne_nil_of_mem hp)
  have hwidest (u : Primitive) (hu : u ∈ head :: others) : ¬ ∀ q ∈ head :: others, q.coercesTo u = true := by
    intro habove
    obtain ⟨t, ht, htu⟩ := hright u hu
    apply hnone t ht
    intro x hx
    obtain ⟨q, hq, hxq⟩ := hleft x hx
    simpa [converts, hxq, htu] using habove q hq
  obtain ⟨r, hr, hnarrowest⟩ := Primitive.narrowest_foldlM_widen hnumeric hwidest
  exact ⟨head, others, r, rfl, hr, hnarrowest⟩

/-- `common` of number types is the `Primitive.Narrowest` one. -/
theorem common_numbers (hq : q.ComparesNumbers) (hne : candidates ≠ []) (hnumeric : ∀ p ∈ ps, p.isNumeric = true) :
    ∃ t r, common q candidates = pure (some t) ∧ t.shape = .prim r ∧ Primitive.Narrowest ps r := by
  have hnumbers (x : Ty) (hx : x ∈ candidates) : x.isNumeric = true := by
    obtain ⟨p, hp, hxp⟩ := (mem_of_mapM_eq_some hprims).1 x hx
    simp [Ty.isNumeric, hxp, hnumeric p hp]
  have hsearch : (candidates.findM? fun c => candidates.allM fun other => q.assignable other c) =
      pure (candidates.find? fun c => candidates.all fun other => converts other c) := by
    apply Search.findM?_eq_pure
    intro c hc
    apply Search.allM_eq_pure
    intro other hother
    exact assignable_numbers hq (hnumbers other hother) (hnumbers c hc)
  have hresolve : candidates.mapM q.resolveDeep = pure candidates := by
    rw [Search.mapM_eq_pure (g := id), List.map_id]
    intro x hx
    obtain ⟨p, -, hxp⟩ := (mem_of_mapM_eq_some hprims).1 x hx
    rw [Queries.resolveDeep, Ty.reference?, Ty.primitive?_eq_some.mp hxp]
    rfl
  obtain ⟨first, rest, rfl⟩ := List.exists_cons_of_ne_nil hne
  unfold common
  dsimp only
  split
  · next hall =>
    -- all of them are the same
    have hsame : ∀ x ∈ first :: rest, x.same first = true := by
      rw [List.forall_mem_cons]
      exact ⟨first.same_refl, by simpa [Ty.beq_eq_same] using hall⟩
    have habove (x : Ty) (hx : x ∈ first :: rest) : converts x first = true := by
      obtain ⟨p, -, hp⟩ := (mem_of_mapM_eq_some hprims).1 x hx
      have herase := congrArg Ty.primitive? ((Ty.same_iff_erase_eq x first).mp (hsame x hx))
      rw [Ty.primitive?_erase, Ty.primitive?_erase] at herase
      simp [converts, ← herase, hp]
    obtain ⟨r, hr, hnarrowest⟩ := narrowest_of_candidate hprims List.mem_cons_self habove
    exact ⟨first, r, rfl, hr, hnarrowest⟩
  · rw [hsearch, pure_bind]
    cases hfound : (first :: rest).find? fun c => (first :: rest).all fun other => converts other c with
    | some widest =>
      have habove := List.find?_some hfound
      rw [List.all_eq_true] at habove
      obtain ⟨r, hr, hnarrowest⟩ := narrowest_of_candidate hprims (List.mem_of_find?_eq_some hfound) habove
      exact ⟨widest, r, rfl, hr, hnarrowest⟩
    | none =>
      have hnone (t : Ty) (ht : t ∈ first :: rest) : ¬ ∀ x ∈ first :: rest, converts x t = true := by
        have := List.find?_eq_none.mp hfound t ht
        rwa [List.all_eq_true] at this
      obtain ⟨head, others, r, rfl, hr, hnarrowest⟩ := narrowest_of_merged hprims hne hnumeric hnone
      refine ⟨.prim r, r, ?_, rfl, hnarrowest⟩
      dsimp only
      rw [hresolve, pure_bind, hprims]
      dsimp only
      rw [hr]
      rfl

end Candidates

end Typing

/-! ## Branches -/

theorem Ty.isError_of_numbers? {t : Ty} {m : Numbers} (h : t.numbers? = some m) : t.isError = false := by
  rcases (Ty.holdsNumbers h).prim_or_nullable with ⟨p, hp, -⟩ | ⟨base, p, hp, -⟩ <;>
    simp [Ty.isError, Ty.problem?, hp]

theorem Ty.hasNull_of_numbers? {t : Ty} {m : Numbers} (h : t.numbers? = some m) :
    (t.isNull || t.isNullable) = m.hasNull := by
  cases Ty.holdsNumbers h with
  | never shape => simp [Ty.isNull, Ty.isNullable, Ty.isPrimitive, Ty.primitive?, shape]
  | null shape => simp [Ty.isNull, Ty.isPrimitive, Ty.primitive?, shape]
  | number shape numeric => simp [(Ty.plain_of_isNumeric shape numeric).2.1, Ty.isNullable, shape]
  | nullable shape => simp [Ty.isNullable, shape]

/-- `branchCandidate?` of a branch of numbers is its number type. -/
theorem branchCandidate?_numbers {t : Ty} {m : Numbers} (h : t.numbers? = some m) :
    (branchCandidate? t = none ∧ m.number = none) ∨
      ∃ u p, branchCandidate? t = some u ∧ u.primitive? = some p ∧ m.number = some p := by
  cases Ty.holdsNumbers h with
  | never shape => exact .inl ⟨by simp [branchCandidate?, shape], rfl⟩
  | null shape => exact .inl ⟨by simp [branchCandidate?, shape], rfl⟩
  | @number p shape numeric =>
    have hself : branchCandidate? t = some t := by
      obtain ⟨hnever, hnull, -⟩ := Ty.plain_of_isNumeric shape numeric
      have hcontributes := branchCandidate?_contributes t
      generalize branchCandidate? t = found at hcontributes
      cases hcontributes with
      | never h => cases h.symm.trans hnever
      | null h => cases h.symm.trans hnull
      | base h => cases shape.symm.trans h
      | self => rfl
    exact .inr ⟨t, p, hself, Ty.primitive?_eq_some.mpr shape, rfl⟩
  | @nullable base p shape inner =>
    exact .inr ⟨base, p, by simp [branchCandidate?, shape], Ty.primitive?_eq_some.mpr inner, rfl⟩

section Branches

variable {types : List Ty} (hnumbers : ∀ t ∈ types, t.numbers?.isSome = true)

include hnumbers

/-- `branchCandidate?` gives the number types of branches of numbers, in order. -/
theorem mapM_branchCandidate? :
    (types.filterMap branchCandidate?).mapM Ty.primitive? =
      some ((types.filterMap Ty.numbers?).filterMap (·.number)) := by
  induction types with
  | nil => rfl
  | cons t rest ih =>
    rw [List.forall_mem_cons] at hnumbers
    obtain ⟨m, hm⟩ := Option.isSome_iff_exists.mp hnumbers.1
    rcases branchCandidate?_numbers hm with ⟨hnone, hnumber⟩ | ⟨u, p, hu, hp, hnumber⟩
    · rw [List.filterMap_cons_none hnone, List.filterMap_cons_some hm, List.filterMap_cons_none hnumber]
      exact ih hnumbers.2
    · rw [List.filterMap_cons_some hu, List.filterMap_cons_some hm, List.filterMap_cons_some hnumber, List.mapM_cons,
        hp, ih hnumbers.2]
      rfl

omit hnumbers in
theorem isNumeric_of_mem_numbers (p : Primitive) (h : p ∈ (types.filterMap Ty.numbers?).filterMap (·.number)) :
    p.isNumeric = true := by
  obtain ⟨m, hm, hp⟩ := List.mem_filterMap.mp h
  obtain ⟨t, -, htm⟩ := List.mem_filterMap.mp hm
  exact Ty.isNumeric_of_numbers? htm hp

theorem admitNull_numbers : admitNull types = (types.filterMap Ty.numbers?).any (·.hasNull) := by
  induction types with
  | nil => rfl
  | cons t rest ih =>
    rw [List.forall_mem_cons] at hnumbers
    obtain ⟨m, hm⟩ := Option.isSome_iff_exists.mp hnumbers.1
    rw [List.filterMap_cons_some hm, List.any_cons, ← ih hnumbers.2, ← Ty.hasNull_of_numbers? hm]
    rfl

/-- The values of `commonType` of branches of numbers are `Numbers.IsCommon` to them. -/
theorem Queries.commonType_isCommon {q below : Queries} (hq : q.common = Typing.common below)
    (hbelow : below.ComparesNumbers) :
    ∃ t m, q.commonType types = pure t ∧ t.numbers? = some m ∧ Numbers.IsCommon (types.filterMap Ty.numbers?) m := by
  have herrors (t : Ty) (ht : t ∈ types) : t.isError = false := by
    obtain ⟨m, hm⟩ := Option.isSome_iff_exists.mp (hnumbers t ht)
    exact Ty.isError_of_numbers? hm
  have hprims := mapM_branchCandidate? hnumbers
  have hnull := admitNull_numbers hnumbers
  rw [q.commonType_eq herrors, hnull]
  split
  · next hempty =>
    -- only `null` and `never` are left
    rw [List.isEmpty_iff.mp hempty] at hprims
    have hnone := (Option.some.inj hprims).symm
    cases hadmits : (types.filterMap Ty.numbers?).any (·.hasNull) with
    | true => exact ⟨.null, ⟨none, true⟩, rfl, rfl, hadmits.symm, by simp [hnone], nofun⟩
    | false => exact ⟨.never, ⟨none, false⟩, rfl, rfl, hadmits.symm, by simp [hnone], nofun⟩
  · next hsome =>
    have hne : types.filterMap branchCandidate? ≠ [] := by simpa using hsome
    obtain ⟨t, r, ht, hshape, hnarrowest⟩ := Typing.common_numbers hprims hbelow hne isNumeric_of_mem_numbers
    have hr := hnarrowest.isNumeric isNumeric_of_mem_numbers
    have hcommon (hasNull : Bool) (hadmits : (types.filterMap Ty.numbers?).any (·.hasNull) = hasNull) :
        Numbers.IsCommon (types.filterMap Ty.numbers?) ⟨some r, hasNull⟩ := by
      refine ⟨hadmits.symm, ?_, ?_⟩
      · obtain ⟨x, hx⟩ := List.exists_mem_of_ne_nil _ hne
        obtain ⟨p, hp, -⟩ := (mem_of_mapM_eq_some hprims).1 x hx
        simp [List.ne_nil_of_mem hp]
      · intro r' hr'
        obtain rfl := Option.some.inj hr'
        exact hnarrowest
    rw [hq, ht, pure_bind]
    cases hadmits : (types.filterMap Ty.numbers?).any (·.hasNull) with
    | true => exact ⟨t.nullable, _, rfl, Ty.numbers?_nullable hshape hr, hcommon true hadmits⟩
    | false => exact ⟨t, _, rfl, Ty.numbers?_number hshape hr, hcommon false hadmits⟩

end Branches

/-! ## Checkers -/

/-- `answers` that go two levels deep are `ComparesNumbers`. -/
theorem answers_comparesNumbers (p : Tree) (depth references : Nat) :
    (answers p (depth + 2) references).ComparesNumbers := by
  intro a e m n ha he
  have hbelow : (answers p (depth + 1) references).comparer.compare = (answers p depth references).comparer.step := rfl
  exact Comparer.step_numbers hbelow ha he

namespace Checker

/-- Whatever the tree and whatever a checker has been asked before, it finds a common type for branches each of which is
a number type, a nullable number type, `null` or `never`, without remembering anything. The values of that type only
depend on which branches there are, not on their order and not on how often they are repeated: null, if a branch has it,
and the narrowest number type that all numbers of the branches convert to. And the checker accepts every branch for
it. -/
theorem commonType_numbers {types : List Ty} (hnumbers : ∀ t ∈ types, t.numbers?.isSome = true) :
    ∃ m, Numbers.IsCommon (types.filterMap Ty.numbers?) m ∧
      ∀ (p : Tree) (c : Checker) (others : List Ty), (∀ u, u ∈ others ↔ u ∈ types) →
        ∃ t, (queries p >>= (·.commonType others)).run c = .ok (t, c) ∧ t.isError = false ∧ t.same m.toTy = true ∧
          ∀ x ∈ others, (compare p x t).run c = .ok (.ok (), c) := by
  obtain ⟨m, hm⟩ : ∃ m, Numbers.IsCommon (types.filterMap Ty.numbers?) m := by
    -- the answers about any tree will do
    obtain ⟨-, m, -, -, hm⟩ := Queries.commonType_isCommon hnumbers (q := answers {} 3 0) rfl
      (answers_comparesNumbers {} 0 0)
    exact ⟨m, hm⟩
  refine ⟨m, hm, fun p c others hothers => ?_⟩
  obtain ⟨depth, hdepth⟩ : ∃ depth, questionDepth p c.settings = depth + 3 := by
    refine ⟨questionDepth p c.settings - 3, ?_⟩
    unfold questionDepth depthLimit
    omega
  have hnumbers' (t : Ty) (ht : t ∈ others) := hnumbers t ((hothers t).mp ht)
  obtain ⟨t, m', ht, htm, hcommon⟩ := Queries.commonType_isCommon hnumbers' (q := answers p (depth + 3) 0) rfl
    (answers_comparesNumbers p depth 0)
  obtain rfl : m' = m := by
    apply hcommon.unique
    apply hm.congr
    intro b
    simp only [List.mem_filterMap, hothers]
  refine ⟨t, ?_, Ty.isError_of_numbers? htm, Ty.same_toTy htm, fun x hx => ?_⟩
  · rw [run_queries_bind, answersFor, hdepth, ht]
    rfl
  · obtain ⟨b, hb⟩ := Option.isSome_iff_exists.mp (hnumbers' x hx)
    obtain ⟨v, hv, hholds⟩ := answers_comparesNumbers p (depth + 1) 0 x t b m' hb htm
    rw [compare, run_queries_bind, answersFor, hdepth, hv]
    rw [hcommon.fits (List.mem_filterMap.mpr ⟨x, hx, hb⟩)] at hholds
    cases v with
    | ok => rfl
    | error why => cases hholds

/-- The branches `u64`, `i8?` and `never`. -/
def readings : List Ty :=
  [.prim .u64, .nullable (.prim .i8), .never]

/-- The readings have the common type `f64?`, although `f32` would hold their numbers as well. -/
theorem readings_common :
    ∃ t, (queries {} >>= (·.commonType [.never, .nullable (.prim .i8), .prim .u64, .never])).run {} = .ok (t, {}) ∧
      t.same (.nullable (.prim .f64)) = true ∧
      ∀ x ∈ readings, (compare {} x t).run {} = .ok (.ok (), {}) := by
  have hnumbers : ∀ t ∈ readings, t.numbers?.isSome = true := by decide +kernel
  obtain ⟨m, hm, hfound⟩ := commonType_numbers hnumbers
  have hf64 : Numbers.IsCommon (readings.filterMap Ty.numbers?) ⟨some .f64, true⟩ := by decide +kernel
  obtain rfl := hm.unique hf64
  have hmem (u : Ty) : u ∈ [.never, .nullable (.prim .i8), .prim .u64, .never] ↔ u ∈ readings := by
    simp only [readings, List.mem_cons, List.not_mem_nil]
    tauto
  obtain ⟨t, ht, -, hsame, haccepts⟩ := hfound {} {} _ hmem
  exact ⟨t, ht, hsame, fun x hx => haccepts x ((hmem x).mpr hx)⟩

end Checker

end Ascribe
