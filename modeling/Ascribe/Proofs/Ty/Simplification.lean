import Mathlib.Data.List.Induction
import Ascribe.Proofs.Ty.Canonical
import Ascribe.Proofs.Ty.Congruence

/-!
# Simplification computes a canonical form

Simplification goes through a type once: the members of a nested union are spliced into the union around it as they
come out of their own simplification. They are not parts of the type, so it takes an argument that nothing is left to be
done about them. A procedure that does look again, and simplifies and splices what it has spliced, is `Ty.Simplifies`.
It ends for every type, and with the same result (`Ty.simplifies_iff`), because simplification changes nothing about
what it gives (`Ty.simplify_simplify`).

The members of a simplified union are told by the leaves of the type. A leaf of a union is a member that is no union,
at any depth of nested unions, in its simplified form; a leaf that comes to a union, such as a join of one union,
contributes the leaves of that union. A nested union without members comes to `never`, and so it counts as the leaf
`never`: `(|) | u8` is `never | u8` and not `u8`. All this holds of joins as well (`SetForm`).

## Key results

- `Ty.same_simplify_iff`: the canonical types are those that simplification leaves as they are
- `Ty.simplifies_iff`: looking again at what has been spliced changes nothing
- `Ty.simplify_wrap`: the members of a simplified union are its leaves without repetitions
-/

namespace Ascribe

/-- The forms that are sets of members. -/
inductive SetForm where
  | union | join
  deriving DecidableEq

namespace SetForm

def wrap : SetForm → List Ty → Shape Ty
  | .union => .union
  | .join => .join

/-- The members of a type of this form. -/
def members? (form : SetForm) (t : Ty) : Option (List Ty) :=
  match form, t.shape with
  | .union, .union members => some members
  | .join, .join members => some members
  | _, _ => none

/-- The members that a type contributes to a set of this form around it. -/
def splice (form : SetForm) (t : Ty) : List Ty :=
  (form.members? t).getD [t]

variable {form : SetForm} {t : Ty} {members : List Ty}

theorem members?_eq_some : form.members? t = some members ↔ t.shape = form.wrap members := by
  obtain ⟨shape, origin⟩ := t
  cases form <;> cases shape <;> simp [members?, wrap]

@[simp] theorem members?_wrap (origin : Option NodeId) : form.members? ⟨form.wrap members, origin⟩ = some members :=
  members?_eq_some.mpr rfl

theorem splice_eq_self (h : form.members? t = none) : form.splice t = [t] := by
  rw [splice, h]
  rfl

theorem splice_eq_members (h : form.members? t = some members) : form.splice t = members := by
  rw [splice, h]
  rfl

end SetForm

namespace Ty

/-! ## Members without repetitions -/

section Distinct

variable {kept members : List Ty} {t : Ty}

/-- Add a member unless one that is the same is there. -/
def keep (kept : List Ty) (t : Ty) : List Ty :=
  if kept.contains t then kept else kept ++ [t]

theorem distinct_eq_foldl (members : List Ty) : distinct members = members.foldl keep [] :=
  rfl

theorem contains_keep (kept : List Ty) (x t : Ty) : (keep kept x).contains t = (kept.contains t || t.same x) := by
  unfold keep
  split
  · next hx =>
    -- what is the same as an element that is there is there itself
    cases hsame : t.same x with
    | false => simp
    | true =>
      obtain ⟨y, hy, hxy⟩ := List.contains_iff_exists_mem_beq.mp hx
      have ht : kept.contains t = true := by
        refine List.contains_iff_exists_mem_beq.mpr ⟨y, hy, ?_⟩
        rw [beq_eq_same, same_iff_erase_eq] at hxy ⊢
        exact ((same_iff_erase_eq t x).mp hsame).trans hxy
      simp [ht]
  · simp [List.contains_append]

theorem contains_foldl_keep (members kept : List Ty) (t : Ty) :
    (members.foldl keep kept).contains t = (kept.contains t || members.contains t) := by
  induction members generalizing kept with
  | nil => simp
  | cons x rest ih => rw [List.foldl_cons, ih, contains_keep, List.contains_cons, beq_eq_same, Bool.or_assoc]

/-- Adding members by `keep`, it makes no difference whether they are `distinct` first. -/
theorem foldl_keep_distinct (members kept : List Ty) :
    (distinct members).foldl keep kept = members.foldl keep kept := by
  induction members using List.reverseRecOn with
  | nil => rfl
  | append_singleton rest t ih =>
    have hlast : distinct (rest ++ [t]) = keep (distinct rest) t := by
      simp [distinct_eq_foldl]
    rw [hlast, List.foldl_append, List.foldl_cons, List.foldl_nil, keep]
    split
    · next hthere =>
      -- a repetition finds itself among what has been added already
      rw [distinct_eq_foldl, contains_foldl_keep] at hthere
      have hadded : (rest.foldl keep kept).contains t = true := by
        rw [contains_foldl_keep]
        simpa using .inr hthere
      rw [ih, keep, if_pos hadded]
    · rw [List.foldl_append, ih]
      rfl

/-- `keep` adds all members that differ from each other and from what is kept already. -/
theorem foldl_keep_of_pairwise {kept members : List Ty} (h : (kept ++ members).Pairwise fun a b => a.same b = false) :
    members.foldl keep kept = kept ++ members := by
  induction members generalizing kept with
  | nil => simp
  | cons t rest ih =>
    have hnew : kept.contains t = false := by
      rw [← Bool.not_eq_true, List.contains_iff_exists_mem_beq]
      rintro ⟨x, hx, hsame⟩
      have hdiffer := (List.pairwise_append.mp h).2.2 x hx t List.mem_cons_self
      rw [beq_eq_same, same_iff_erase_eq] at hsame
      rw [← Bool.not_eq_true, same_iff_erase_eq] at hdiffer
      exact hdiffer hsame.symm
    rw [List.append_cons] at h ⊢
    rw [List.foldl_cons, keep, hnew]
    exact ih h

theorem distinct_of_pairwise (h : members.Pairwise fun a b => a.same b = false) : distinct members = members :=
  @foldl_keep_of_pairwise [] members h

/-- `distinct` keeps the first occurrences, in order. -/
theorem distinct_eq_eraseDups (members : List Ty) : distinct members = members.eraseDups := by
  have hloop : ∀ kept, members.foldl keep kept = List.eraseDupsBy.loop (· == ·) members kept.reverse := by
    induction members with
    | nil => simp [List.eraseDupsBy.loop]
    | cons t rest ih =>
      intro kept
      rw [List.foldl_cons, List.eraseDupsBy.loop, List.any_reverse, ← List.contains_eq_any_beq, ih, keep]
      cases kept.contains t <;> simp
  exact hloop []

end Distinct

/-! ## Sets of members that are simplified -/

section Sets

variable {form : SetForm} {t : Ty} {members : List Ty}

theorem simplify_of_members? (h : form.members? t = some members) :
    t.simplify = collapse form.wrap t.origin (distinct ((members.map simplify).flatMap form.splice)) := by
  have hsplice : SetForm.union.splice = unionMembers ∧ SetForm.join.splice = joinMembers := by
    refine ⟨funext fun t => ?_, funext fun t => ?_⟩ <;> obtain ⟨shape, origin⟩ := t <;> cases shape <;> rfl
  rw [SetForm.members?_eq_some] at h
  rw [simplify_eq, h]
  cases form with
  | union => rw [hsplice.1]; rfl
  | join => rw [hsplice.2]; rfl

/-- The members of a canonical union or join are a `FlatSet` of canonical types. -/
theorem IsCanonical.flatSet (h : t.IsCanonical) (hmembers : form.members? t = some members) :
    FlatSet (fun m => (form.members? m).isSome) members ∧ ∀ m ∈ members, m.IsCanonical := by
  obtain ⟨hflat, -, hparts⟩ := isCanonical_iff.mp h
  have hform : isUnion = (fun m => (SetForm.union.members? m).isSome) ∧
      isJoin = fun m => (SetForm.join.members? m).isSome := by
    refine ⟨funext fun t => ?_, funext fun t => ?_⟩ <;> obtain ⟨shape, origin⟩ := t <;> cases shape <;> rfl
  rw [SetForm.members?_eq_some] at hmembers
  rw [hmembers] at hparts
  rw [IsFlat, hmembers] at hflat
  cases form with
  | union => exact ⟨hform.1 ▸ hflat, hparts⟩
  | join => exact ⟨hform.2 ▸ hflat, hparts⟩

theorem IsCanonical.members?_eq_none (h : t.IsCanonical) (hmembers : form.members? t = some members) {m : Ty}
    (hm : m ∈ members) : form.members? m = none := by
  simpa using (h.flatSet hmembers).1.unnested m hm

end Sets

/-! ## Canonical types -/

section Canonical

variable {t : Ty}

theorem isUnion_erase (t : Ty) : t.erase.isUnion = t.isUnion := by
  rw [isUnion, isUnion, erase_shape]
  cases t.shape <;> rfl

theorem isJoin_erase (t : Ty) : t.erase.isJoin = t.isJoin := by
  rw [isJoin, isJoin, erase_shape]
  cases t.shape <;> rfl

theorem isBuilt_erase (t : Ty) : t.erase.isBuilt = t.isBuilt := by
  have hwrapped (base : Ty) : base.erase.isWrapped = base.isWrapped := by
    simp [isWrapped, isNull, isPrimitive]
  rw [isBuilt, isBuilt, erase_shape]
  cases t.shape <;> first | exact hwrapped _ | rfl

theorem flatSet_erase_iff {nested : Ty → Bool} (hnested : ∀ t, nested t.erase = nested t) {members : List Ty} :
    FlatSet nested (members.map erase) ↔ FlatSet nested members := by
  simp [flatSet_iff, hnested, List.pairwise_map]

theorem isFlat_erase_iff : t.erase.IsFlat ↔ t.IsFlat := by
  unfold IsFlat
  rw [erase_shape]
  cases t.shape with
  | union members => exact flatSet_erase_iff isUnion_erase
  | join members => exact flatSet_erase_iff isJoin_erase
  | _ => exact Iff.rfl

theorem opened_erase (t : Ty) : t.erase.shape.opened = t.shape.opened.map erase := by
  rw [erase_shape, ← Shape.opened_map]
  cases t.shape <;> rfl

theorem mem_parts_of_mem_opened {part : Ty} (h : part ∈ t.shape.opened) : part ∈ t.shape.parts := by
  revert h
  cases t.shape <;> simp +contextual [Shape.opened, Shape.parts]

/-- `IsCanonical` does not depend on back-references. -/
theorem isCanonical_erase_iff : t.erase.IsCanonical ↔ t.IsCanonical := by
  induction t using induction_on_parts with
  | step t ih =>
    rw [isCanonical_iff, isCanonical_iff (t := t), isFlat_erase_iff, isBuilt_erase, opened_erase, List.forall_mem_map]
    refine and_congr_right fun _ => and_congr_right fun _ => forall₂_congr fun part hpart => ?_
    exact ih part (mem_parts_of_mem_opened hpart)

/-- Nullable types have no back-reference, in a type and in the parts of it that simplification looks into: building a
nullable type anew drops it. -/
def IsBare (t : Ty) : Prop :=
  t.fold fun t parts => (t.isNullable = true → t.origin = none) ∧ ∀ part ∈ parts.opened, part

theorem isBare_iff :
    t.IsBare ↔ (t.isNullable = true → t.origin = none) ∧ ∀ part ∈ t.shape.opened, part.IsBare := by
  rw [IsBare, fold_eq, Shape.opened_map]
  simp only [List.mem_map, forall_exists_index, and_imp, forall_apply_eq_imp_iff₂]
  rfl

theorem erase_isBare (t : Ty) : t.erase.IsBare := by
  induction t using induction_on_parts with
  | step t ih =>
    rw [isBare_iff, opened_erase, List.forall_mem_map]
    exact ⟨fun _ => by rw [erase_eq]; rfl, fun part hpart => ih part (mem_parts_of_mem_opened hpart)⟩

theorem nullable_isBare {base : Ty} (h : base.IsBare) : base.nullable.IsBare := by
  rw [nullable_eq]
  split
  · refine isBare_iff.mpr ⟨fun _ => rfl, fun part hpart => ?_⟩
    rw [List.mem_singleton.mp hpart]
    exact h
  · exact h

theorem IsBare.of_members? (h : t.IsBare) {form : SetForm} {members : List Ty}
    (hmembers : form.members? t = some members) : ∀ m ∈ members, m.IsBare := by
  have hparts := (isBare_iff.mp h).2
  rw [SetForm.members?_eq_some.mp hmembers] at hparts
  cases form <;> exact hparts

theorem IsBare.splice (h : t.IsBare) (form : SetForm) : ∀ m ∈ form.splice t, m.IsBare := by
  cases hmembers : form.members? t with
  | none => simpa [SetForm.splice_eq_self hmembers] using h
  | some members =>
    rw [SetForm.splice_eq_members hmembers]
    exact h.of_members? hmembers

theorem collapse_isBare {form : SetForm} {origin : Option NodeId} {members : List Ty} (h : ∀ m ∈ members, m.IsBare) :
    (collapse form.wrap origin members).IsBare := by
  unfold collapse
  split
  · exact isBare_iff.mpr ⟨nofun, nofun⟩
  · exact h _ List.mem_cons_self
  · cases form <;> exact isBare_iff.mpr ⟨nofun, h⟩

theorem simplify_isBare (t : Ty) : t.simplify.IsBare := by
  induction t using induction_on_parts with
  | step t ih =>
    have hset (form : SetForm) {members : List Ty} (h : form.members? t = some members)
        (hmembers : ∀ m ∈ members, m.simplify.IsBare) : t.simplify.IsBare := by
      rw [simplify_of_members? h]
      refine collapse_isBare fun m hm => ?_
      obtain ⟨u, hu, hm⟩ := List.mem_flatMap.mp (mem_of_mem_distinct hm)
      obtain ⟨m', hm', rfl⟩ := List.mem_map.mp hu
      exact (hmembers m' hm').splice form m hm
    cases hshape : t.shape with
    | union members =>
      exact hset .union (SetForm.members?_eq_some.mpr hshape) fun m hm => ih m (by rwa [hshape])
    | join members =>
      exact hset .join (SetForm.members?_eq_some.mpr hshape) fun m hm => ih m (by rwa [hshape])
    | nullable base =>
      rw [simplify_eq, hshape]
      exact nullable_isBare (ih base (by rw [hshape]; exact List.mem_cons_self))
    | array elem =>
      rw [simplify_eq, hshape]
      refine isBare_iff.mpr ⟨by simp [isNullable], fun part hpart => ?_⟩
      rw [List.mem_singleton.mp hpart]
      exact ih elem (by rw [hshape]; exact List.mem_cons_self)
    | _ =>
      rw [simplify_eq, hshape]
      refine isBare_iff.mpr ⟨by simp [isNullable, hshape], ?_⟩
      rw [hshape]
      intro part hpart
      cases hpart

theorem flatMap_splice_eq_self {form : SetForm} {members : List Ty} (h : ∀ m ∈ members, form.members? m = none) :
    members.flatMap form.splice = members := by
  calc
    members.flatMap form.splice = members.flatMap fun m => [m] :=
      List.flatMap_congr fun m hm => SetForm.splice_eq_self (h m hm)
    _ = members := List.flatMap_singleton' members

theorem collapse_of_several {wrap : List Ty → Shape Ty} {origin : Option NodeId} {members : List Ty}
    (h : 2 ≤ members.length) : collapse wrap origin members = ⟨wrap members, origin⟩ := by
  match members with
  | [] | [_] => simp at h
  | _ :: _ :: _ => rfl

theorem eq_mk {shape : Shape Ty} {origin : Option NodeId} (hshape : t.shape = shape) (horigin : t.origin = origin) :
    t = ⟨shape, origin⟩ := by
  subst hshape horigin
  cases t
  rfl

/-- `simplify` leaves a canonical type as it is if it has no back-reference to drop (`IsBare`). -/
theorem simplify_eq_self (hcanonical : t.IsCanonical) (hbare : t.IsBare) : t.simplify = t := by
  induction t using induction_on_parts with
  | step t ih =>
    obtain ⟨-, hbuilt, hcanonicalParts⟩ := isCanonical_iff.mp hcanonical
    obtain ⟨horigin, hbareParts⟩ := isBare_iff.mp hbare
    have hparts (part : Ty) (hpart : part ∈ t.shape.opened) : part.simplify = part :=
      ih part (mem_parts_of_mem_opened hpart) (hcanonicalParts part hpart) (hbareParts part hpart)
    have hset (form : SetForm) {members : List Ty} (h : form.members? t = some members)
        (hmembers : ∀ m ∈ members, m.simplify = m) : t.simplify = t := by
      obtain ⟨hflat, -⟩ := hcanonical.flatSet h
      have hmap : members.map simplify = members := by
        rw [List.map_congr_left hmembers, List.map_id']
      rw [simplify_of_members? h, hmap, flatMap_splice_eq_self fun m hm => hcanonical.members?_eq_none h hm,
        distinct_of_pairwise hflat.apart, collapse_of_several hflat.several]
      exact (eq_mk (SetForm.members?_eq_some.mp h) rfl).symm
    cases hshape : t.shape with
    | union members =>
      exact hset .union (SetForm.members?_eq_some.mpr hshape) fun m hm => hparts m (by rwa [hshape])
    | join members =>
      exact hset .join (SetForm.members?_eq_some.mpr hshape) fun m hm => hparts m (by rwa [hshape])
    | nullable base =>
      have hwrapped : base.isWrapped = true := by rwa [isBuilt, hshape] at hbuilt
      rw [simplify_eq, hshape]
      show base.simplify.nullable = t
      rw [hparts base (by rw [hshape]; exact List.mem_cons_self), nullable_eq, if_pos hwrapped]
      exact (eq_mk hshape (horigin (by rw [isNullable, hshape]))).symm
    | array elem =>
      rw [simplify_eq, hshape]
      show Ty.mk (.array elem.simplify) t.origin = t
      rw [hparts elem (by rw [hshape]; exact List.mem_cons_self)]
      exact (eq_mk hshape rfl).symm
    | _ => rw [simplify_eq, hshape]

/-- `simplify` is idempotent. -/
theorem simplify_simplify (t : Ty) : t.simplify.simplify = t.simplify :=
  simplify_eq_self t.simplify_isCanonical t.simplify_isBare

/-- `IsCanonical` holds of exactly the types that `simplify` leaves the same. -/
theorem same_simplify_iff : t.simplify.same t = true ↔ t.IsCanonical := by
  rw [same_iff_erase_eq]
  constructor
  · intro herase
    rw [← isCanonical_erase_iff, ← herase, isCanonical_erase_iff]
    exact t.simplify_isCanonical
  · intro hcanonical
    have hfixed : t.erase.simplify = t.erase := simplify_eq_self (isCanonical_erase_iff.mpr hcanonical) t.erase_isBare
    rw [erase_simplify_erase, hfixed, erase_erase]

end Canonical

/-! ## Looking again -/

mutual

/-- Simplification that looks again at what it has spliced. -/
inductive Simplifies : Ty → Ty → Prop where
  | members {form : SetForm} {t : Ty} {members flat : List Ty} (hmembers : form.members? t = some members)
    (hflat : Flattens form [] members flat) : Simplifies t (collapse form.wrap t.origin flat)
  | nullable {t base base' : Ty} (hshape : t.shape = .nullable base) (hbase : Simplifies base base') :
    Simplifies t base'.nullable
  | array {t elem elem' : Ty} (hshape : t.shape = .array elem) (helem : Simplifies elem elem') :
    Simplifies t ⟨.array elem', t.origin⟩
  | other {t : Ty} (hmembers : ∀ form : SetForm, form.members? t = none) (hnullable : ∀ base, t.shape ≠ .nullable base)
    (harray : ∀ elem, t.shape ≠ .array elem) : Simplifies t t

/-- Members are simplified one by one and added to what is kept. If one comes to a set of the same form, the members of
that set are taken in turn, and what they come to is added. -/
inductive Flattens : SetForm → List Ty → List Ty → List Ty → Prop where
  | nil {form : SetForm} {kept : List Ty} : Flattens form kept [] kept
  | leaf {form : SetForm} {kept rest out : List Ty} {m m' : Ty} (hm : Simplifies m m') (hleaf : form.members? m' = none)
    (hrest : Flattens form (keep kept m') rest out) : Flattens form kept (m :: rest) out
  | nested {form : SetForm} {kept rest out inner flat : List Ty} {m m' : Ty} (hm : Simplifies m m')
    (hinner : form.members? m' = some inner) (hflat : Flattens form [] inner flat)
    (hrest : Flattens form (flat.foldl keep kept) rest out) : Flattens form kept (m :: rest) out

end

section Again

variable {form : SetForm} {members : List Ty} {t : Ty}

theorem simplify_member (hcanonical : t.IsCanonical) (hbare : t.IsBare) (h : form.members? t = some members) :
    ∀ m ∈ members, m.simplify = m := fun m hm =>
  simplify_eq_self ((hcanonical.flatSet h).2 m hm) (hbare.of_members? h m hm)

/-- `splice` takes the members of a canonical set as they are when they are simplified again. -/
theorem splice_again (hcanonical : t.IsCanonical) (hbare : t.IsBare) (h : form.members? t = some members) :
    (members.map simplify).flatMap form.splice = members := by
  rw [List.map_congr_left (simplify_member hcanonical hbare h), List.map_id',
    flatMap_splice_eq_self fun m hm => hcanonical.members?_eq_none h hm]

mutual

/-- `Simplifies` comes to the result of `simplify`, -/
theorem Simplifies.eq_simplify : ∀ {t r : Ty}, Simplifies t r → r = t.simplify
  | _, _, .members hmembers hflat => by
    rw [simplify_of_members? hmembers, hflat.eq_foldl, distinct_eq_foldl]
  | _, _, .nullable hshape hbase => by
    rw [simplify_eq, hshape, hbase.eq_simplify]
  | _, _, .array hshape helem => by
    rw [simplify_eq, hshape, helem.eq_simplify]
  | t, _, .other hmembers hnullable harray => by
    rw [simplify_eq]
    cases hshape : t.shape with
    | union members => exact absurd (hmembers .union) (by rw [SetForm.members?_eq_some.mpr hshape]; nofun)
    | join members => exact absurd (hmembers .join) (by rw [SetForm.members?_eq_some.mpr hshape]; nofun)
    | nullable base => exact absurd hshape (hnullable base)
    | array elem => exact absurd hshape (harray elem)
    | _ => rfl

/-- since `Flattens` takes a set that is spliced apart into itself. -/
theorem Flattens.eq_foldl : ∀ {form : SetForm} {kept members out : List Ty}, Flattens form kept members out →
    out = ((members.map simplify).flatMap form.splice).foldl keep kept
  | _, _, _, _, .nil => rfl
  | _, _, _, _, .leaf hm hleaf hrest => by
    rw [hrest.eq_foldl, List.map_cons, List.flatMap_cons, ← hm.eq_simplify, SetForm.splice_eq_self hleaf]
    rfl
  | _, _, _, _, .nested hm hinner hflat hrest => by
    have hagain := splice_again (simplify_isCanonical _) (simplify_isBare _) (hm.eq_simplify ▸ hinner)
    rw [hrest.eq_foldl, List.map_cons, List.flatMap_cons, List.foldl_append, ← hm.eq_simplify,
      SetForm.splice_eq_members hinner, hflat.eq_foldl, hagain, ← distinct_eq_foldl, foldl_keep_distinct]

end

/-- `Simplifies` holds of a type if it does of what the type is made of. -/
theorem Simplifies.of_parts
    (hset : ∀ {form : SetForm} {members : List Ty}, form.members? t = some members →
      Flattens form [] members (((members.map simplify).flatMap form.splice).foldl keep []))
    (hparts : ∀ part ∈ t.shape.opened, Simplifies part part.simplify) : Simplifies t t.simplify := by
  have hmembers (form : SetForm) {members : List Ty} (h : form.members? t = some members) :
      Simplifies t t.simplify := by
    rw [simplify_of_members? h]
    exact .members h (hset h)
  cases hshape : t.shape with
  | union members => exact hmembers .union (SetForm.members?_eq_some.mpr hshape)
  | join members => exact hmembers .join (SetForm.members?_eq_some.mpr hshape)
  | nullable base =>
    rw [simplify_eq, hshape]
    exact .nullable hshape (hparts base (by rw [hshape]; exact List.mem_cons_self))
  | array elem =>
    rw [simplify_eq, hshape]
    exact .array hshape (hparts elem (by rw [hshape]; exact List.mem_cons_self))
  | _ =>
    rw [simplify_eq, hshape]
    refine .other (fun form => ?_) (by simp [hshape]) (by simp [hshape])
    cases form <;> simp [SetForm.members?, hshape]

/-- `Flattens` adds members as they are that simplify to themselves and are not spliced. -/
theorem Flattens.of_fixed (h : ∀ m ∈ members, Simplifies m m ∧ form.members? m = none) (kept : List Ty) :
    Flattens form kept members (members.foldl keep kept) := by
  induction members generalizing kept with
  | nil => exact .nil
  | cons m rest ih =>
    rw [List.forall_mem_cons] at h
    exact .leaf h.1.1 h.1.2 (ih h.2 _)

theorem mem_opened_of_mem_members (h : form.members? t = some members) {m : Ty} (hm : m ∈ members) :
    m ∈ t.shape.opened := by
  rw [SetForm.members?_eq_some.mp h]
  cases form <;> exact hm

/-- `Simplifies` ends at once at a canonical type: nothing in it is spliced. -/
theorem IsCanonical.simplifies (hcanonical : t.IsCanonical) (hbare : t.IsBare) : Simplifies t t := by
  induction t using induction_on_parts with
  | step t ih =>
    have hparts (part : Ty) (hpart : part ∈ t.shape.opened) : Simplifies part part :=
      ih part (mem_parts_of_mem_opened hpart) ((isCanonical_iff.mp hcanonical).2.2 part hpart)
        ((isBare_iff.mp hbare).2 part hpart)
    have hself : Simplifies t t.simplify := by
      refine .of_parts (fun {form members} hmembers => ?_) fun part hpart => ?_
      · rw [splice_again hcanonical hbare hmembers]
        refine .of_fixed (fun m hm => ?_) []
        exact ⟨hparts m (mem_opened_of_mem_members hmembers hm), hcanonical.members?_eq_none hmembers hm⟩
      · have hfixed := simplify_eq_self ((isCanonical_iff.mp hcanonical).2.2 part hpart)
          ((isBare_iff.mp hbare).2 part hpart)
        rw [hfixed]
        exact hparts part hpart
    rwa [simplify_eq_self hcanonical hbare] at hself

/-- `Flattens` takes members one by one; those that come to a set are looked at again, which ends because that set is
canonical. -/
theorem Flattens.of_members (h : ∀ m ∈ members, Simplifies m m.simplify) (kept : List Ty) :
    Flattens form kept members (((members.map simplify).flatMap form.splice).foldl keep kept) := by
  induction members generalizing kept with
  | nil => exact .nil
  | cons m rest ih =>
    rw [List.forall_mem_cons] at h
    rw [List.map_cons, List.flatMap_cons, List.foldl_append]
    cases hinner : form.members? m.simplify with
    | none =>
      rw [SetForm.splice_eq_self hinner]
      exact .leaf h.1 hinner (ih h.2 _)
    | some inner =>
      have hcanonical := m.simplify_isCanonical
      have hfixed : Flattens form [] inner (distinct inner) :=
        .of_fixed (fun x hx => ⟨((hcanonical.flatSet hinner).2 x hx).simplifies
          (m.simplify_isBare.of_members? hinner x hx), hcanonical.members?_eq_none hinner hx⟩) []
      rw [SetForm.splice_eq_members hinner, ← foldl_keep_distinct inner]
      exact .nested h.1 hinner hfixed (ih h.2 _)

theorem simplifies_simplify (t : Ty) : Simplifies t t.simplify := by
  induction t using induction_on_parts with
  | step t ih =>
    refine .of_parts (fun hmembers => .of_members (fun m hm => ?_) []) fun part hpart =>
      ih part (mem_parts_of_mem_opened hpart)
    exact ih m (mem_parts_of_mem_opened (mem_opened_of_mem_members hmembers hm))

/-- `Simplifies`, which looks again at what it has spliced, always ends, with the result of `simplify`. -/
theorem simplifies_iff {r : Ty} : Simplifies t r ↔ r = t.simplify := by
  constructor
  · exact Simplifies.eq_simplify
  · rintro rfl
    exact t.simplifies_simplify

end Again

/-! ## Leaves -/

section Leaves

variable {form : SetForm} {members empty : List Ty} {t : Ty}

/-- The simplified leaves that a type contributes to a set around it. They are those of its members if it is such a set
itself, `empty` if it has none, and otherwise what it simplifies to, or the members of that if it comes to a set. -/
def leaves (form : SetForm) (empty : List Ty) (t : Ty) : List Ty :=
  t.fold fun t parts =>
    match form, parts with
    | .union, .union members | .join, .join members => if members.isEmpty then empty else members.flatten
    | _, _ => form.splice t.simplify

theorem leaves_of_members? (h : form.members? t = some members) :
    t.leaves form empty = if members.isEmpty then empty else members.flatMap (leaves form empty) := by
  have hempty : (members.map (leaves form empty)).isEmpty = members.isEmpty := by cases members <;> rfl
  rw [leaves, fold_eq, SetForm.members?_eq_some.mp h, ← hempty]
  cases form <;> rfl

theorem leaves_of_not_set (h : form.members? t = none) : t.leaves form empty = form.splice t.simplify := by
  rw [leaves, fold_eq]
  obtain ⟨shape, origin⟩ := t
  cases form <;> cases shape <;> first | rfl | cases h

theorem splice_simplify_ne_nil (form : SetForm) (t : Ty) : form.splice t.simplify ≠ [] := by
  cases h : form.members? t.simplify with
  | none => simp [SetForm.splice_eq_self h]
  | some members =>
    have hseveral := (t.simplify_isCanonical.flatSet h).1.several
    rw [SetForm.splice_eq_members h]
    rintro rfl
    simp at hseveral

theorem members?_of_mem_splice (t : Ty) {m : Ty} (hm : m ∈ form.splice t.simplify) : form.members? m = none := by
  cases h : form.members? t.simplify with
  | none =>
    rw [SetForm.splice_eq_self h, List.mem_singleton] at hm
    rwa [hm]
  | some members =>
    rw [SetForm.splice_eq_members h] at hm
    exact t.simplify_isCanonical.members?_eq_none h hm

/-- `splice` undoes `collapse`, unless there are no members. -/
theorem splice_collapse {origin : Option NodeId} (hne : members ≠ []) (h : ∀ m ∈ members, form.members? m = none) :
    form.splice (collapse form.wrap origin members) = members := by
  match members with
  | [] => exact absurd rfl hne
  | [m] => exact SetForm.splice_eq_self (h m List.mem_cons_self)
  | _ :: _ :: _ => exact SetForm.splice_eq_members (SetForm.members?_wrap origin)

theorem distinct_ne_nil (h : members ≠ []) : distinct members ≠ [] := by
  obtain ⟨m, hm⟩ := List.exists_mem_of_ne_nil _ h
  have hthere : (distinct members).contains m = true := by
    rw [distinct_eq_foldl, contains_foldl_keep, Bool.or_eq_true, List.contains_iff_exists_mem_beq,
      List.contains_iff_exists_mem_beq]
    exact .inr ⟨m, hm, by rw [beq_eq_same, same_refl]⟩
  intro hnil
  rw [hnil] at hthere
  cases hthere

/-- What a simplified set contributes by `splice` to a set around it. -/
theorem splice_simplify (h : form.members? t = some members) (hne : members ≠ []) :
    form.splice t.simplify = distinct ((members.map simplify).flatMap form.splice) := by
  have hspliced : ∀ x ∈ distinct ((members.map simplify).flatMap form.splice), form.members? x = none := by
    intro x hx
    obtain ⟨u, hu, hx⟩ := List.mem_flatMap.mp (mem_of_mem_distinct hx)
    obtain ⟨m, -, rfl⟩ := List.mem_map.mp hu
    exact members?_of_mem_splice m hx
  have hsome : (members.map simplify).flatMap form.splice ≠ [] := by
    obtain ⟨m, hm⟩ := List.exists_mem_of_ne_nil _ hne
    intro hnil
    exact splice_simplify_ne_nil form m (List.flatMap_eq_nil_iff.mp hnil _ (List.mem_map_of_mem hm))
  rw [simplify_of_members? h, splice_collapse (distinct_ne_nil hsome) hspliced]

/-- A type contributes its leaves to a set around it, up to repetitions, if a set without members counts as `never`. -/
theorem foldl_keep_leaves (t : Ty) (kept : List Ty) :
    (t.leaves form [never]).foldl keep kept = (form.splice t.simplify).foldl keep kept := by
  induction t using induction_on_parts generalizing kept with
  | step t ih =>
    cases hmembers : form.members? t with
    | none => rw [leaves_of_not_set hmembers]
    | some members =>
      rw [leaves_of_members? hmembers]
      by_cases hnil : members = []
      · subst hnil
        rw [simplify_of_members? hmembers]
        cases form <;> rfl
      · rw [List.isEmpty_eq_false_iff.mpr hnil, splice_simplify hmembers hnil, foldl_keep_distinct, List.flatMap_map]
        show (members.flatMap (leaves form [never])).foldl keep kept = _
        rw [List.foldl_flatMap, List.foldl_flatMap]
        refine List.foldl_ext _ _ kept fun kept m hm => ?_
        exact ih m (mem_parts_of_mem_opened (mem_opened_of_mem_members hmembers hm)) kept

/-- The members of a simplified set are the leaves of the set, each once and in order of first occurrence. Without a
leaf it comes to `never`, and with one leaf to that leaf. -/
theorem simplify_wrap (form : SetForm) (members : List Ty) (origin : Option NodeId) :
    simplify ⟨form.wrap members, origin⟩ =
      collapse form.wrap origin (members.flatMap (leaves form [never])).eraseDups := by
  rw [simplify_of_members? (SetForm.members?_wrap origin), ← distinct_eq_eraseDups, distinct_eq_foldl,
    distinct_eq_foldl, List.flatMap_map, List.foldl_flatMap, List.foldl_flatMap]
  congr 1
  exact List.foldl_ext _ _ [] fun kept m _ => (foldl_keep_leaves m kept).symm

/-- Simplification computes a canonical form. Done once, or with a second look at what has been spliced, it ends with
the same result, which is canonical. The types that it leaves as they are, but for back-references, are the canonical
ones, so doing it twice is doing it once. The members of a union or join are its leaves, those of nested ones included,
each once and in order of first occurrence: `never` if there are none, and the leaf itself if there is one. A nested
union or join without members counts as the leaf `never`. -/
theorem simplify_canonicalForm (t : Ty) :
    (∀ r, Simplifies t r ↔ r = t.simplify) ∧ t.simplify.IsCanonical ∧ (t.simplify.same t = true ↔ t.IsCanonical) ∧
      t.simplify.simplify = t.simplify ∧
      ∀ (form : SetForm) (members : List Ty) (origin : Option NodeId), simplify ⟨form.wrap members, origin⟩ =
        collapse form.wrap origin (members.flatMap (leaves form [never])).eraseDups :=
  ⟨fun _ => simplifies_iff, t.simplify_isCanonical, same_simplify_iff, t.simplify_simplify, simplify_wrap⟩

/-- A union without members that is nested in a union is not passed over: the union of it and `u8` has the one leaf
`u8`, and it comes to `never | u8`. -/
theorem nestedEmpty_counted :
    ([union [], prim .u8].flatMap (leaves .union [])).map text = ["u8"] ∧
      (union [union [], prim .u8]).simplify.text = "never | u8" ∧
      (union [union [], prim .u8]).simplify.same
        (collapse .union none ([union [], prim .u8].flatMap (leaves .union [])).eraseDups) = false := by
  decide +kernel

end Leaves

end Ty

end Ascribe
