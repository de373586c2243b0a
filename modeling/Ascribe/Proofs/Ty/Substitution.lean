import Ascribe.Proofs.Ty.Parts
import Ascribe.Ty.Generics

/-!
# Substitution composes

Substituting twice is substituting once. After a first pass, the types that replaced generic parameters
stand in the result, and a second pass goes through them as well; so the first bindings must give types
that the second pass leaves alone. Then the two passes are one, under the first bindings extended by
those of the second that they do not have themselves.

A pass differs from a plain replacement of leaves in three ways, and each has to come out even. A
signature hides the bindings of its own generic parameters (`Bindings.shadow_extend`). Nullable types are
built anew, so nothing becomes nullable twice (`Ty.substitute_nullable`). And a pass without bindings
does nothing at all, not even that.

A pass that builds a nullable type anew drops its back-reference, so the two results are the same rather
than equal.

## Key results

- `Ty.substitute_eq_replaced`: what a pass does to a layer it only passes through
- `Ty.erase_substitute_of_avoids`: a pass leaves types alone that do not mention what it binds
- `Ty.substitute_substitute`: two passes are one
-/

namespace Ascribe

namespace Bindings

variable (bindings more : Bindings)

/-- Bindings together with those of `more` whose names they do not bind themselves. -/
def extend : Bindings :=
  ⟨bindings.entries ++ (more.without bindings.contains).entries⟩

theorem get?_extend (name : String) :
    (bindings.extend more).get? name = (bindings.get? name).or (more.get? name) := by
  have append : (bindings.extend more).get? name =
      (bindings.get? name).or ((more.without bindings.contains).get? name) :=
    List.lookup_append
  rw [append, Table.get?_without, Table.contains]
  cases bindings.get? name <;> simp

theorem extend_of_isEmpty {bindings : Bindings} (h : bindings.isEmpty = true) :
    bindings.extend more = more := by
  obtain ⟨entries⟩ := bindings
  obtain rfl : entries = [] := List.isEmpty_iff.mp h
  rw [extend, Table.without_eq_self fun _ _ => rfl]
  rfl

theorem extend_isEmpty {more : Bindings} (h : more.isEmpty = true) : bindings.extend more = bindings := by
  obtain ⟨entries⟩ := more
  obtain rfl : entries = [] := List.isEmpty_iff.mp h
  simp [extend, Table.without]

@[simp] theorem extend_self : bindings.extend bindings = bindings := by
  have known : ∀ entry ∈ bindings.entries, bindings.contains entry.1 = true := by
    intro entry hentry
    rw [Table.contains, Table.get?, Option.isSome_iff_ne_none, Ne, List.lookup_eq_none_iff]
    intro hnone
    simpa using hnone entry hentry
  have none_left : (bindings.without bindings.contains).entries = [] := by
    simpa [Table.without] using known
  rw [extend, none_left, List.append_nil]

@[simp] theorem shadow_nil : bindings.shadow [] = bindings :=
  Table.without_eq_self fun _ _ => rfl

theorem get?_shadow (names : List String) (name : String) :
    (bindings.shadow names).get? name = if names.contains name then none else bindings.get? name :=
  Table.get?_without bindings _ name

/-- `shadow` hides names of `extend` as it does of both bindings. -/
theorem shadow_extend (names : List String) :
    (bindings.extend more).shadow names = (bindings.shadow names).extend (more.shadow names) := by
  -- a name that is hidden is not added either way; any other is bound as much as before
  have visible (entry : String × Ty) :
      (!names.contains entry.1 && !bindings.contains entry.1) =
        (!(bindings.shadow names).contains entry.1 && !names.contains entry.1) := by
    simp only [Table.contains, get?_shadow]
    cases names.contains entry.1 <;> simp
  simp only [extend, shadow, Table.without, List.filter_append, List.filter_filter, visible]

variable {bindings}

theorem mem_values_of_get? {name : String} {value : Ty} (h : bindings.get? name = some value) :
    value ∈ bindings.values :=
  Table.mem_values_of_get? h

theorem mem_values_of_mem_shadow {names : List String} {value : Ty}
    (h : value ∈ (bindings.shadow names).values) : value ∈ bindings.values := by
  obtain ⟨entry, hentry, rfl⟩ := List.mem_map.mp h
  exact List.mem_map.mpr ⟨entry, (List.mem_filter.mp hentry).1, rfl⟩

end Bindings

/-- The layers a substitution passes through to their parts. -/
def Shape.isPassedThrough {α : Type} : Shape α → Bool
  | .nullable _ | .generic _ | .error _ => false
  | _ => true

namespace Ty

/-! ## What one pass does -/

/-- A type with every part substituted, each under the bindings visible where it stands. -/
def replaced (t : Ty) (bindings : Bindings) : Ty :=
  ⟨t.shape.mapUnder fun own part => part.substitute (bindings.shadow own), t.origin⟩

variable {t : Ty} {bindings : Bindings}

theorem substitute_of_isEmpty (h : bindings.isEmpty = true) : t.substitute bindings = t := by
  rw [substitute, foldWith_eq]
  unfold substituteStep
  rw [if_pos h]

/-- What `substitute` does to a type if something is bound. -/
theorem substitute_eq (t : Ty) (h : bindings.isEmpty = false) :
    t.substitute bindings =
      match t.shape with
      | .generic g => (bindings.get? g.name).getD (t.replaced bindings)
      | .nullable base => nullable (base.substitute bindings)
      | .error _ => t
      | _ => t.replaced bindings := by
  have parts : substituteStep.replaced t (t.shape.map substitute) bindings () = t.replaced bindings := by
    rw [substituteStep.replaced, Shape.map, Shape.mapUnder_mapUnder, replaced]
  rw [substitute, foldWith_eq]
  show substituteStep t (t.shape.map substitute) bindings = _
  unfold substituteStep
  rw [parts, h]
  obtain ⟨shape, origin⟩ := t
  cases shape with
  | generic g =>
    obtain ⟨name, constraint⟩ := g
    cases hname : bindings.get? name <;> cases constraint <;>
      simp [Shape.map, Shape.mapUnder, replaced, hname]
  | _ => rfl

theorem substitute_eq_replaced (ht : t.shape.isPassedThrough = true) (h : bindings.isEmpty = false) :
    t.substitute bindings = t.replaced bindings := by
  rw [substitute_eq t h]
  revert ht
  cases t.shape <;> simp [Shape.isPassedThrough]

@[simp] theorem isPassedThrough_replaced (t : Ty) (bindings : Bindings) :
    (t.replaced bindings).shape.isPassedThrough = t.shape.isPassedThrough := by
  rw [replaced]
  cases t.shape <;> rfl

/-- `nullable` and `substitute` can be done in either order. -/
theorem substitute_nullable (base : Ty) (h : bindings.isEmpty = false) :
    base.nullable.substitute bindings = (base.substitute bindings).nullable := by
  have again (x : Ty) : x.nullable.nullable = x.nullable := by
    rw [nullable_eq x]
    split
    · rfl
    · rw [nullable_eq, if_neg ‹_›]
  rw [nullable_eq base]
  split
  · rw [substitute_eq _ h]
    rfl
  · -- a type that is not wrapped is nullable already, or the pass leaves it alone
    rename_i hbase
    obtain ⟨shape, origin⟩ := base
    cases shape with
    | nullable inner =>
      rw [substitute_eq _ h]
      exact (again _).symm
    | error e => rw [substitute_eq _ h, nullable_eq, if_neg hbase]
    | prim p =>
      rw [substitute_eq_replaced rfl h]
      exact (by rw [nullable_eq, if_neg hbase] : nullable ⟨.prim p, origin⟩ = ⟨.prim p, origin⟩).symm
    | _ => exact absurd rfl hbase

/-! ## Passes without regard to back-references -/

theorem erase_nullable (base : Ty) : base.nullable.erase = base.erase.nullable := by
  have wrapped : base.erase.isWrapped = base.isWrapped := by
    simp only [isWrapped, isNullable, isNull, isPrimitive, primitive?_erase, isAny_erase, isError_erase,
      erase_shape]
    cases base.shape <;> rfl
  rw [nullable_eq, nullable_eq, wrapped]
  split
  · rw [erase_eq]
    rfl
  · rfl

theorem erase_replaced (t : Ty) (bindings : Bindings) :
    (t.replaced bindings).erase =
      of (t.shape.mapUnder fun own part => (part.substitute (bindings.shadow own)).erase).forgetOrigins := by
  rw [erase_eq, Shape.erasedWith, Shape.map, replaced, Shape.mapUnder_mapUnder]

/-- `replaced` twice is `replaced` once if `substitute` twice is once at every part. -/
theorem erase_replaced_replaced {earlier later both : Bindings}
    (h : ∀ own, ∀ part ∈ t.shape.parts,
      ((part.substitute (earlier.shadow own)).substitute (later.shadow own)).erase =
        (part.substitute (both.shadow own)).erase) :
    ((t.replaced earlier).replaced later).erase = (t.replaced both).erase := by
  rw [erase_replaced, erase_replaced, replaced, Shape.mapUnder_mapUnder, Shape.mapUnder_congr h]

/-! ## Types a pass leaves alone -/

/-- Whether no generic parameter with one of these names occurs in a type, at any depth. -/
def avoids (names : String → Bool) (t : Ty) : Bool :=
  t.everywhere fun t =>
    match t.shape with
    | .generic g => !names g.name
    | _ => true

theorem avoids_shadow (h : t.avoids bindings.contains = true) (names : List String) :
    t.avoids (bindings.shadow names).contains = true := by
  refine everywhere_mono (fun t ht => ?_) h
  split at ht
  · simp only [Table.contains, Bindings.get?_shadow] at ht ⊢
    split <;> simp_all
  · rfl

/-- `substitute` leaves a type alone whose parts it leaves alone, unless it replaces it. -/
theorem erase_substitute_of_replaced (h : bindings.isEmpty = false) (hbuilt : t.isBuilt = true)
    (hgeneric : ∀ g, t.shape = .generic g → bindings.get? g.name = none)
    (hreplaced : (∀ e, t.shape ≠ .error e) → (t.replaced bindings).erase = t.erase) :
    (t.substitute bindings).erase = t.erase := by
  rw [substitute_eq t h]
  cases hshape : t.shape with
  | generic g =>
    show ((bindings.get? g.name).getD (t.replaced bindings)).erase = t.erase
    rw [hgeneric g hshape]
    exact hreplaced (by simp [hshape])
  | nullable base =>
    have hwrapped : base.isWrapped = true := by
      simpa [isBuilt, hshape] using hbuilt
    have hbase : (base.substitute bindings).erase = base.erase := by
      have hparts := hreplaced (by simp [hshape])
      rw [erase_replaced, erase_eq t, hshape] at hparts
      simpa [of, Shape.erasedWith, Shape.map, Shape.mapUnder, Shape.forgetOrigins] using hparts
    show (base.substitute bindings).nullable.erase = t.erase
    rw [erase_nullable, hbase, ← erase_nullable, nullable_eq, if_pos hwrapped, erase_eq, erase_eq t, hshape]
    rfl
  | error e => rfl
  | _ => exact hreplaced (by simp [hshape])

/-- `substitute` leaves a type alone, up to `erase`, that `avoids` what is bound. -/
theorem erase_substitute_of_avoids (havoids : t.avoids bindings.contains = true)
    (hnormal : t.isNormal = true) : (t.substitute bindings).erase = t.erase := by
  induction t using induction_on_parts generalizing bindings with
  | step t ih =>
    cases hbindings : bindings.isEmpty with
    | true => rw [substitute_of_isEmpty hbindings]
    | false =>
      rw [avoids, everywhere_iff] at havoids
      rw [isNormal, everywhere_iff] at hnormal
      have part_erase (own : List String) (part : Ty) (hpart : part ∈ t.shape.parts) :
          (part.substitute (bindings.shadow own)).erase = part.erase :=
        ih part hpart (avoids_shadow (havoids.2 part hpart) own) (hnormal.2 part hpart)
      refine erase_substitute_of_replaced hbindings hnormal.1 (fun g hshape => ?_) fun _ => ?_
      · simpa [hshape, Table.contains] using havoids.1
      · rw [erase_replaced, Shape.mapUnder_congr part_erase, erase_eq t]
        rfl

/-! ## Two passes -/

/-- `substitute` twice is `substitute` once with `extend` of both bindings, up to `erase`. -/
theorem erase_substitute_substitute {earlier later : Bindings} (t : Ty)
    (havoids : ∀ value ∈ earlier.values, value.avoids later.contains = true)
    (hnormal : ∀ value ∈ earlier.values, value.isNormal = true) :
    ((t.substitute earlier).substitute later).erase = (t.substitute (earlier.extend later)).erase := by
  induction t using induction_on_parts generalizing earlier later with
  | step t ih =>
    -- a pass without bindings does nothing, so the other one does it all
    cases hearlier : earlier.isEmpty with
    | true => rw [substitute_of_isEmpty hearlier, Bindings.extend_of_isEmpty later hearlier]
    | false =>
      cases hlater : later.isEmpty with
      | true => rw [substitute_of_isEmpty hlater, Bindings.extend_isEmpty earlier hlater]
      | false =>
        have hboth : (earlier.extend later).isEmpty = false := by
          rw [Table.isEmpty, List.isEmpty_eq_false_iff] at hearlier ⊢
          exact List.append_ne_nil_of_left_ne_nil hearlier _
        have part_erase (own : List String) (part : Ty) (hpart : part ∈ t.shape.parts) :
            ((part.substitute (earlier.shadow own)).substitute (later.shadow own)).erase =
              (part.substitute ((earlier.extend later).shadow own)).erase := by
          rw [Bindings.shadow_extend]
          apply ih part hpart
          · intro value hvalue
            exact avoids_shadow (havoids value (Bindings.mem_values_of_mem_shadow hvalue)) own
          · intro value hvalue
            exact hnormal value (Bindings.mem_values_of_mem_shadow hvalue)
        have parts := erase_replaced_replaced part_erase
        rw [substitute_eq t hearlier, substitute_eq t hboth]
        cases hshape : t.shape with
        | generic g =>
          show (((earlier.get? g.name).getD (t.replaced earlier)).substitute later).erase =
            (((earlier.extend later).get? g.name).getD (t.replaced (earlier.extend later))).erase
          rw [Bindings.get?_extend]
          cases hname : earlier.get? g.name with
          | some value =>
            have hvalue := Bindings.mem_values_of_get? hname
            exact erase_substitute_of_avoids (havoids value hvalue) (hnormal value hvalue)
          | none =>
            -- the parameter is still there, with its constraint rewritten, and the second pass sees it
            have still : (t.replaced earlier).substitute later =
                (later.get? g.name).getD ((t.replaced earlier).replaced later) := by
              rw [substitute_eq _ hlater]
              simp only [replaced, hshape, Shape.mapUnder]
            show ((t.replaced earlier).substitute later).erase =
              ((later.get? g.name).getD (t.replaced (earlier.extend later))).erase
            rw [still]
            cases later.get? g.name with
            | some value => rfl
            | none => exact parts
        | nullable base =>
          have hbase : ((base.substitute earlier).substitute later).erase =
              (base.substitute (earlier.extend later)).erase := by
            simpa [hshape, Shape.parts] using part_erase [] base
          show ((base.substitute earlier).nullable.substitute later).erase =
            (base.substitute (earlier.extend later)).nullable.erase
          rw [substitute_nullable _ hlater, erase_nullable, hbase, ← erase_nullable]
        | error e =>
          show (t.substitute later).erase = t.erase
          rw [substitute_eq t hlater, hshape]
        | _ =>
          show ((t.replaced earlier).substitute later).erase = _
          rw [substitute_eq_replaced (by rw [isPassedThrough_replaced, hshape]; rfl) hlater]
          exact parts

/-- `substitute` twice is `substitute` once, with the first bindings extended by those of the second whose names they do
not bind (`Bindings.extend`), if the second pass leaves the types alone that are bound first: they avoid what it binds,
and their nullable types are as they are built. So a pass done twice is done once. -/
theorem substitute_substitute (t : Ty) (earlier later : Bindings)
    (havoids : ∀ value ∈ earlier.values, value.avoids later.contains = true)
    (hnormal : ∀ value ∈ earlier.values, value.isNormal = true) :
    ((t.substitute earlier).substitute later).same (t.substitute (earlier.extend later)) = true ∧
      (later = earlier → ((t.substitute earlier).substitute earlier).same (t.substitute earlier) = true) := by
  have once := (same_iff_erase_eq _ _).mpr (erase_substitute_substitute t havoids hnormal)
  refine ⟨once, ?_⟩
  rintro rfl
  rwa [Bindings.extend_self] at once

/-- `fn<U>(T?, U) -> K`, with `K` below `T[]`: one parameter to replace, one that is hidden and one whose
constraint is rewritten before it is replaced. -/
def mapping : Ty :=
  function {
    params := [
      { name := "x", type := nullable (of (.generic { name := "T" })) },
      { name := "y", type := of (.generic { name := "U" }) }]
    result := of (.generic { name := "K", constraint := some (array (of (.generic { name := "T" }))) })
    generics := [{ name := "U" }] }

/-- Binding `T` to `i32?` and then `U` and `K` is binding `T` and `K` at once: `fn<U>(i32?, U) -> bool`. -/
theorem mapping_substitute :
    (prim .i32).nullable.avoids (Table.contains (⟨[("U", string), ("K", bool)]⟩ : Bindings)) = true ∧
      (prim .i32).nullable.isNormal = true ∧
      ((mapping.substitute ⟨[("T", (prim .i32).nullable)]⟩).substitute ⟨[("U", string), ("K", bool)]⟩).same
        (mapping.substitute
          (Bindings.extend ⟨[("T", (prim .i32).nullable)]⟩ ⟨[("U", string), ("K", bool)]⟩)) = true := by
  have havoids : (prim .i32).nullable.avoids (Table.contains (⟨[("U", string), ("K", bool)]⟩ : Bindings)) =
      true := by decide +kernel
  have hnormal : (prim .i32).nullable.isNormal = true := by decide +kernel
  refine ⟨havoids, hnormal, (substitute_substitute mapping _ _ ?_ ?_).1⟩
  · simpa [Table.values] using havoids
  · simpa [Table.values] using hnormal

end Ty

end Ascribe
