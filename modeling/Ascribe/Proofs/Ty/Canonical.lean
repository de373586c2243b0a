import Ascribe.Proofs.Table
import Ascribe.Proofs.Ty.Scope

/-!
# Unions and joins as flat sets

A union is *flat* if it has at least two members, none of which is a union, and no two of which are the same; a join
likewise with joins. Simplification gives flat unions and joins, and not only at the top: the members of what it gives
are simplified too, and so is what stands in a nullable or an array (`Ty.IsCanonical`).

A substitution rebuilds a union from its members and does not simplify it again. So a flat union stays flat exactly if
the substitution keeps its members apart and puts no union in place of one of them (`Ty.KeepsFlat`).

## Key results

- `Ty.simplify_isCanonical`: simplification gives canonical types
- `Ty.isFlat_substitute_iff`: which substitutions keep a flat type flat
-/

namespace Ascribe

/-- The parts of a layer that simplification looks into. -/
def Shape.opened {α : Type} : Shape α → List α
  | .union members | .join members => members
  | .nullable part | .array part => [part]
  | _ => []

theorem Shape.opened_map {α β : Type} (f : α → β) (s : Shape α) : (s.map f).opened = s.opened.map f := by
  cases s <;> rfl

namespace Ty

def isUnion (t : Ty) : Bool :=
  match t.shape with
  | .union _ => true
  | _ => false

def isJoin (t : Ty) : Bool :=
  match t.shape with
  | .join _ => true
  | _ => false

/-- Several members, none of which is of the kind that must not be nested, and no two of which are the same. -/
structure FlatSet (nested : Ty → Bool) (members : List Ty) : Prop where
  several : 2 ≤ members.length
  unnested : ∀ member ∈ members, nested member = false
  apart : members.Pairwise fun a b => a.same b = false

theorem flatSet_iff {nested : Ty → Bool} {members : List Ty} :
    FlatSet nested members ↔ 2 ≤ members.length ∧ (∀ member ∈ members, nested member = false) ∧
      members.Pairwise fun a b => a.same b = false :=
  ⟨fun h => ⟨h.several, h.unnested, h.apart⟩, fun ⟨several, unnested, apart⟩ => ⟨several, unnested, apart⟩⟩

instance (nested : Ty → Bool) (members : List Ty) : Decidable (FlatSet nested members) :=
  decidable_of_iff' _ flatSet_iff

/-- A union or a join is a flat set of members. Nothing is asked of any other type. -/
def IsFlat (t : Ty) : Prop :=
  match t.shape with
  | .union members => FlatSet isUnion members
  | .join members => FlatSet isJoin members
  | _ => True

instance (t : Ty) : Decidable t.IsFlat := by
  unfold IsFlat
  split <;> infer_instance

/-- Unions and joins are flat and nullable types are as they are built, in a type and in the parts of it that
simplification looks into. -/
def IsCanonical (t : Ty) : Prop :=
  t.fold fun t parts => t.IsFlat ∧ t.isBuilt = true ∧ ∀ part ∈ parts.opened, part

theorem isCanonical_iff {t : Ty} :
    t.IsCanonical ↔ t.IsFlat ∧ t.isBuilt = true ∧ ∀ part ∈ t.shape.opened, part.IsCanonical := by
  rw [IsCanonical, fold_eq, Shape.opened_map]
  simp only [List.mem_map, forall_exists_index, and_imp, forall_apply_eq_imp_iff₂]
  rfl

/-! ## Simplification -/

/-- `distinct` keeps no two members that are the same. -/
theorem pairwise_distinct (members : List Ty) : (distinct members).Pairwise fun a b => a.same b = false := by
  -- an element is put at the end only if none of the elements kept so far is the same
  have hfold : ∀ (rest kept : List Ty), kept.Pairwise (fun a b => a.same b = false) →
      (rest.foldl (fun kept t => if kept.contains t then kept else kept ++ [t]) kept).Pairwise
        fun a b => a.same b = false := by
    intro rest
    induction rest with
    | nil => exact fun kept hkept => hkept
    | cons t rest ih =>
      intro kept hkept
      rw [List.foldl_cons]
      apply ih
      split
      · exact hkept
      · next hnew =>
        rw [List.pairwise_append]
        refine ⟨hkept, List.pairwise_singleton _ t, fun a ha b hb => ?_⟩
        rw [List.mem_singleton.mp hb]
        rw [← Bool.not_eq_true]
        intro hsame
        apply hnew
        rw [List.contains_iff_exists_mem_beq]
        refine ⟨a, ha, ?_⟩
        rw [beq_eq_same, same_iff_erase_eq]
        exact ((same_iff_erase_eq a t).mp hsame).symm
  exact hfold members [] .nil

theorem IsCanonical.unionMembers {t : Ty} (h : t.IsCanonical) :
    ∀ m ∈ t.unionMembers, m.isUnion = false ∧ m.IsCanonical := by
  obtain ⟨hflat, -, hparts⟩ := isCanonical_iff.mp h
  intro m hm
  unfold Ty.unionMembers at hm
  split at hm
  · next members hshape =>
    rw [IsFlat, hshape] at hflat
    rw [hshape] at hparts
    exact ⟨hflat.unnested m hm, hparts m hm⟩
  · next hother =>
    obtain rfl := List.mem_singleton.mp hm
    refine ⟨?_, h⟩
    unfold isUnion
    split
    · next members hshape => exact absurd hshape (hother members)
    · rfl

theorem IsCanonical.joinMembers {t : Ty} (h : t.IsCanonical) :
    ∀ m ∈ t.joinMembers, m.isJoin = false ∧ m.IsCanonical := by
  obtain ⟨hflat, -, hparts⟩ := isCanonical_iff.mp h
  intro m hm
  unfold Ty.joinMembers at hm
  split at hm
  · next members hshape =>
    rw [IsFlat, hshape] at hflat
    rw [hshape] at hparts
    exact ⟨hflat.unnested m hm, hparts m hm⟩
  · next hother =>
    obtain rfl := List.mem_singleton.mp hm
    refine ⟨?_, h⟩
    unfold isJoin
    split
    · next members hshape => exact absurd hshape (hother members)
    · rfl

/-- `collapse` makes a canonical type of what `splice` gives for canonical types, also if `distinct` leaves fewer than
two members. -/
theorem collapse_isCanonical {wrap : List Ty → Shape Ty} {nested : Ty → Bool} {splice : Ty → List Ty}
    {origin : Option NodeId} {types : List Ty}
    (hwrap : ∀ members, FlatSet nested members → (∀ m ∈ members, m.IsCanonical) → IsCanonical ⟨wrap members, origin⟩)
    (hsplice : ∀ t ∈ types, ∀ m ∈ splice t, nested m = false ∧ m.IsCanonical) :
    (collapse wrap origin (distinct (types.flatMap splice))).IsCanonical := by
  have hmembers : ∀ m ∈ distinct (types.flatMap splice), nested m = false ∧ m.IsCanonical := by
    intro m hm
    obtain ⟨t, ht, hm⟩ := List.mem_flatMap.mp (mem_of_mem_distinct hm)
    exact hsplice t ht m hm
  have hapart := pairwise_distinct (types.flatMap splice)
  unfold collapse
  split
  · exact isCanonical_iff.mpr ⟨trivial, rfl, fun part hpart => absurd hpart List.not_mem_nil⟩
  · next m hone => exact (hmembers m (by rw [hone]; exact List.mem_cons_self)).2
  · next hnone hone =>
    refine hwrap _ ⟨?_, fun m hm => (hmembers m hm).1, hapart⟩ fun m hm => (hmembers m hm).2
    match hlist : distinct (types.flatMap splice) with
    | [] => exact absurd hlist hnone
    | [m] => exact absurd hlist (hone m)
    | _ :: _ :: rest =>
      show 2 ≤ rest.length + 2
      omega

theorem nullable_isCanonical {base : Ty} (h : base.IsCanonical) : base.nullable.IsCanonical := by
  rw [nullable_eq]
  split
  · next hwrapped =>
    refine isCanonical_iff.mpr ⟨trivial, hwrapped, fun part hpart => ?_⟩
    rw [List.mem_singleton.mp hpart]
    exact h
  · exact h

theorem simplify_eq (t : Ty) :
    t.simplify =
      match t.shape with
      | .union members => collapse .union t.origin (distinct ((members.map simplify).flatMap unionMembers))
      | .join members => collapse .join t.origin (distinct ((members.map simplify).flatMap joinMembers))
      | .nullable base => nullable base.simplify
      | .array elem => ⟨.array elem.simplify, t.origin⟩
      | _ => t := by
  rw [simplify, foldWith_eq]
  cases t.shape <;> simp only [Shape.map, Shape.mapUnder, simplifyStep, List.flatMap_map] <;> rfl

/-- `simplify` gives canonical types (`IsCanonical`). -/
theorem simplify_isCanonical (t : Ty) : t.simplify.IsCanonical := by
  induction t using induction_on_parts with
  | step t ih =>
    have hparts (part : Ty) (hpart : part ∈ t.shape.opened) : part.simplify.IsCanonical := by
      apply ih
      revert hpart
      cases t.shape <;> simp +contextual [Shape.opened, Shape.parts]
    rw [simplify_eq]
    cases hshape : t.shape with
    | union members =>
      apply collapse_isCanonical
      · exact fun members hflat hmembers => isCanonical_iff.mpr ⟨hflat, rfl, hmembers⟩
      · intro u hu
        obtain ⟨m, hm, rfl⟩ := List.mem_map.mp hu
        exact (hparts m (by rw [hshape]; exact hm)).unionMembers
    | join members =>
      apply collapse_isCanonical
      · exact fun members hflat hmembers => isCanonical_iff.mpr ⟨hflat, rfl, hmembers⟩
      · intro u hu
        obtain ⟨m, hm, rfl⟩ := List.mem_map.mp hu
        exact (hparts m (by rw [hshape]; exact hm)).joinMembers
    | nullable base => exact nullable_isCanonical (hparts base (by rw [hshape]; exact List.mem_cons_self))
    | array elem =>
      refine isCanonical_iff.mpr ⟨trivial, rfl, fun part hpart => ?_⟩
      rw [List.mem_singleton.mp hpart]
      exact hparts elem (by rw [hshape]; exact List.mem_cons_self)
    | _ =>
      refine isCanonical_iff.mpr ⟨?_, ?_, ?_⟩
      · rw [IsFlat, hshape]
        trivial
      · rw [isBuilt, hshape]
      · rw [hshape]
        exact fun part hpart => absurd hpart List.not_mem_nil

/-- `simplify` gives flat unions and joins (`IsFlat`). -/
theorem simplify_isFlat (t : Ty) : t.simplify.IsFlat :=
  (isCanonical_iff.mp t.simplify_isCanonical).1

/-! ## Substitution -/

section Substitution

variable {t : Ty} {bindings : Bindings}

/-- A substitution puts nothing that must not be nested in place of a member, and keeps the members apart. -/
structure KeepsSet (nested : Ty → Bool) (members : List Ty) (bindings : Bindings) : Prop where
  unnested : ∀ m ∈ members, ∀ g bound, m.shape = .generic g → bindings.get? g.name = some bound → nested bound = false
  apart : members.Pairwise fun a b => (a.substitute bindings).same (b.substitute bindings) = false

/-- A substitution keeps a flat type flat: the members of a union or join are still a flat set, and so are those of the
type that is put in place of a generic parameter. -/
def KeepsFlat (t : Ty) (bindings : Bindings) : Prop :=
  match t.shape with
  | .union members => KeepsSet isUnion members bindings
  | .join members => KeepsSet isJoin members bindings
  | .generic g => ∀ bound, bindings.get? g.name = some bound → bound.IsFlat
  | _ => True

/-- `nullable` gives a nullable type, a primitive or an error, and so neither a union nor a join. -/
theorem nullable_cases (base : Ty) :
    (∃ wrapped, base.nullable.shape = .nullable wrapped) ∨ (∃ p, base.nullable.shape = .prim p) ∨
      ∃ e, base.nullable.shape = .error e := by
  unfold nullable
  split
  · next inner hshape => exact .inl ⟨inner, hshape⟩
  · next e hshape => exact .inr (.inr ⟨e, hshape⟩)
  · next hshape => exact .inr (.inl ⟨_, hshape⟩)
  · next hshape => exact .inr (.inl ⟨_, hshape⟩)
  · exact .inl ⟨base, rfl⟩

theorem isFlat_nullable (base : Ty) : base.nullable.IsFlat := by
  unfold IsFlat
  obtain ⟨_, h⟩ | ⟨_, h⟩ | ⟨_, h⟩ := nullable_cases base <;> rw [h] <;> trivial

/-- A test of the outermost layer that rewriting the parts does not change, and that nullable types do not pass. -/
structure IsKind (kind : Ty → Bool) : Prop where
  replaced : ∀ t bindings, kind (replaced t bindings) = kind t
  nullable : ∀ base : Ty, kind base.nullable = false

theorem isUnion_isKind : IsKind isUnion where
  replaced t bindings := by
    unfold isUnion Ty.replaced
    cases t.shape <;> rfl
  nullable base := by
    unfold isUnion
    obtain ⟨_, h⟩ | ⟨_, h⟩ | ⟨_, h⟩ := nullable_cases base <;> rw [h]

theorem isJoin_isKind : IsKind isJoin where
  replaced t bindings := by
    unfold isJoin Ty.replaced
    cases t.shape <;> rfl
  nullable base := by
    unfold isJoin
    obtain ⟨_, h⟩ | ⟨_, h⟩ | ⟨_, h⟩ := nullable_cases base <;> rw [h]

variable {nested : Ty → Bool}

/-- `substitute` makes a type of a kind out of one that is not only if it binds a generic parameter to such a type. -/
theorem IsKind.substitute (hkind : IsKind nested) (h : bindings.isEmpty = false) (ht : nested t = false) :
    nested (t.substitute bindings) = false ↔
      ∀ g bound, t.shape = .generic g → bindings.get? g.name = some bound → nested bound = false := by
  have hreplaced : nested (t.replaced bindings) = false := (hkind.replaced t bindings).trans ht
  rw [substitute_eq t h]
  cases hshape : t.shape with
  | generic g =>
    show nested ((bindings.get? g.name).getD (t.replaced bindings)) = false ↔ _
    constructor
    · rintro hnested _ bound ⟨⟩ hbound
      rwa [hbound] at hnested
    · intro hbound
      cases hget : bindings.get? g.name with
      | none => exact hreplaced
      | some bound => exact hbound g bound rfl hget
  | nullable base => simp [hkind.nullable]
  | error e => simp [ht]
  | _ => simp [hreplaced]

/-- A `FlatSet` is one after `substitute` exactly if `KeepsSet` holds of the bindings. -/
theorem flatSet_substitute_iff (hkind : IsKind nested) (h : bindings.isEmpty = false) {members : List Ty}
    (hflat : FlatSet nested members) :
    FlatSet nested (members.map (·.substitute bindings)) ↔ KeepsSet nested members bindings := by
  have hunnested (m : Ty) (hm : m ∈ members) := hkind.substitute h (hflat.unnested m hm)
  constructor
  · intro hafter
    refine ⟨fun m hm => (hunnested m hm).mp (hafter.unnested _ (List.mem_map_of_mem hm)), ?_⟩
    exact List.pairwise_map.mp hafter.apart
  · intro hkeeps
    refine ⟨?_, fun m' hm' => ?_, List.pairwise_map.mpr hkeeps.apart⟩
    · rw [List.length_map]
      exact hflat.several
    · obtain ⟨m, hm, rfl⟩ := List.mem_map.mp hm'
      exact (hunnested m hm).mpr (hkeeps.unnested m hm)

/-- Bindings that bind nothing satisfy `KeepsFlat`. -/
theorem KeepsFlat.of_isEmpty (ht : t.IsFlat) (h : bindings.isEmpty = true) : t.KeepsFlat bindings := by
  have hget := Table.isEmpty_iff_get?.mp h
  have hset {nested : Ty → Bool} {members : List Ty} (hflat : FlatSet nested members) :
      KeepsSet nested members bindings := by
    refine ⟨fun m _ g bound _ hbound => ?_, ?_⟩
    · rw [hget] at hbound
      cases hbound
    · simp only [substitute_of_isEmpty h]
      exact hflat.apart
  unfold IsFlat at ht
  unfold KeepsFlat
  cases hshape : t.shape with
  | union members => exact hset (by simpa only [hshape] using ht)
  | join members => exact hset (by simpa only [hshape] using ht)
  | generic g =>
    intro bound hbound
    rw [hget] at hbound
    cases hbound
  | _ => trivial

/-- `substitute` keeps a flat type flat exactly for the bindings that satisfy `KeepsFlat`. -/
theorem isFlat_substitute_iff (ht : t.IsFlat) : (t.substitute bindings).IsFlat ↔ t.KeepsFlat bindings := by
  cases h : bindings.isEmpty with
  | true =>
    rw [substitute_of_isEmpty h]
    exact ⟨fun hflat => .of_isEmpty hflat h, fun _ => ht⟩
  | false =>
    rw [substitute_eq t h]
    unfold IsFlat at ht
    unfold KeepsFlat
    cases hshape : t.shape with
    | union members =>
      rw [hshape] at ht
      show IsFlat (t.replaced bindings) ↔ _
      simp only [IsFlat, Ty.replaced, hshape, Shape.mapUnder, Bindings.shadow_nil]
      exact flatSet_substitute_iff isUnion_isKind h ht
    | join members =>
      rw [hshape] at ht
      show IsFlat (t.replaced bindings) ↔ _
      simp only [IsFlat, Ty.replaced, hshape, Shape.mapUnder, Bindings.shadow_nil]
      exact flatSet_substitute_iff isJoin_isKind h ht
    | generic g =>
      show IsFlat ((bindings.get? g.name).getD (t.replaced bindings)) ↔ _
      constructor
      · intro hflat bound hbound
        rwa [hbound] at hflat
      · intro hbound
        cases hget : bindings.get? g.name with
        | none => simp [IsFlat, Ty.replaced, hshape, Shape.mapUnder]
        | some bound => exact hbound bound hget
    | nullable base => simp [isFlat_nullable]
    | error e => simp [IsFlat, hshape]
    | _ => simp [IsFlat, Ty.replaced, hshape, Shape.mapUnder]

end Substitution

end Ty

end Ascribe
