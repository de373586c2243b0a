import Ascribe.Proofs.Ty.FreeNames
import Ascribe.Proofs.Ty.Scope

/-!
# Types without free parameters

A type without free generic parameters is one that no substitution changes (`Ty.freeNames_eq_nil_iff_substitute`). The
search for free parameters, which decides what counts as a concrete instantiation, looks at fewer places than a
substitution goes through: it skips the interfaces that a class or an interface is declared below or implements, and of
a constructor the variant that it belongs to and its parameters (`Shape.skipped`). So a type can pass as concrete that a
substitution changes. The names that occur free in such a place are `Ty.hiddenNames`, and there is no other reason
(`Ty.freeNames_eq_nil_iff_hasGenerics`).

## Key results

- `Ty.freeNames_eq_nil_iff_hasGenerics`: what the search finds, and what it misses
- `Ty.hasGenerics_iff_substitute`: which types no substitution changes
-/

namespace Ascribe

variable {α β : Type}

/-! ## The places that are searched -/

namespace Shape

/-- The parts of a shape that are searched for free parameters. -/
def searched : Shape α → List α
  | .cls body => body.attributes.map (·.type) ++ body.methods.flatMap (·.signature.visited)
  | .interface body => body.methods.flatMap (·.signature.visited)
  | .constructed c => c.args
  | s => s.visited

/-- The parts of a shape that a substitution goes through and that are not searched for free parameters. -/
def skipped : Shape α → List α
  | .cls body => body.supers ++ body.impls
  | .interface body => body.supers
  | .constructed c => c.variant :: c.params.map (·.type)
  | _ => []

theorem mem_visited_iff {s : Shape α} {part : α} : part ∈ s.visited ↔ part ∈ s.searched ∨ part ∈ s.skipped := by
  cases s with
  | cls body => simp [visited, searched, skipped, or_assoc]
  | interface body => simp [visited, searched, skipped]
  | constructed c => simp [visited, searched, skipped, parts, or_left_comm]
  | _ => simp [visited, searched, skipped]

theorem searched_map (f : α → β) (s : Shape α) : (s.map f).searched = s.searched.map f := by
  have signature (s : Signature α) : (s.mapUnder fun _ => f).visited = s.visited.map f := by
    simp [Signature.visited, Signature.paramTypes, Signature.mapUnder, Function.comp_def]
  cases s <;>
    simp [map, mapUnder, mapFields, mapMethods, searched, visited, parts, signature, Function.comp_def,
      List.map_flatMap, List.flatMap_map]

/-- The searched parts of a shape, each with the names that are bound around it. -/
def scopedSearched (s : Shape α) : List (List String × α) :=
  (s.mapUnder Prod.mk).searched

/-- The skipped parts of a shape, each with the names that are bound around it. -/
def scopedSkipped (s : Shape α) : List (List String × α) :=
  (s.mapUnder Prod.mk).skipped

theorem mem_scopedParts_iff {s : Shape α} {part : List String × α} :
    part ∈ s.scopedParts ↔ part ∈ s.scopedSearched ∨ part ∈ s.scopedSkipped :=
  mem_visited_iff

theorem scopedSearched_map (f : α → β) (s : Shape α) :
    (s.map f).scopedSearched = s.scopedSearched.map fun part => (part.1, f part.2) := by
  rw [scopedSearched, scopedSearched, ← searched_map, map, mapUnder_mapUnder, map, mapUnder_mapUnder]

theorem scopedParts_forgetOrigins (s : Shape α) : s.forgetOrigins.scopedParts = s.scopedParts := by
  cases s <;>
    simp [forgetOrigins, scopedParts, mapUnder, mapFields, mapMethods, visited, parts, Function.comp_def,
      List.flatMap_map]

/-- `mapUnder` only depends on what the function does at each part under the names that are bound there. -/
theorem mapUnder_congr_scoped {f g : List String → α → β} {s : Shape α}
    (h : ∀ part ∈ (s.mapUnder Prod.mk).parts, f part.1 part.2 = g part.1 part.2) : s.mapUnder f = s.mapUnder g := by
  have split (f : List String → α → β) : s.mapUnder f = (s.mapUnder Prod.mk).map fun part => f part.1 part.2 := by
    rw [map, mapUnder_mapUnder]
  rw [split f, split g, map_congr h]

/-- Whether no generic parameter that a layer mentions or declares has a bound. -/
def isUnconstrained : Shape α → Bool
  | .generic g => g.constraint.isNone
  | .fn s | .coroutine s => s.generics.all (·.constraint.isNone)
  | .cls body => body.methods.all fun m => m.signature.generics.all (·.constraint.isNone)
  | .interface body => body.methods.all fun m => m.signature.generics.all (·.constraint.isNone)
  | _ => true

theorem isUnconstrained_mapUnder (f : List String → α → β) (s : Shape α) :
    (s.mapUnder f).isUnconstrained = s.isUnconstrained := by
  cases s <;> simp [mapUnder, mapMethods, Signature.mapUnder, isUnconstrained, Function.comp_def]

/-- If no parameter has a bound, then `visited` has all of `parts`, but for what an error expected. -/
theorem mem_visited_of_mem_parts {s : Shape α} (hplain : s.isUnconstrained = true) (herror : ∀ e, s ≠ .error e)
    {part : α} (h : part ∈ s.parts) : part ∈ s.visited := by
  have signature {s : Signature α} (hplain : s.generics.all (·.constraint.isNone) = true) (h : part ∈ s.parts) :
      part ∈ s.visited := by
    have hnone : s.generics.filterMap (·.constraint) = [] := by simpa using hplain
    simpa [Signature.parts, Signature.visited, hnone] using h
  have methods {methods : List (Method α)}
      (hplain : (methods.all fun m => m.signature.generics.all (·.constraint.isNone)) = true)
      (h : part ∈ methods.flatMap (·.signature.parts)) : part ∈ methods.flatMap (·.signature.visited) := by
    obtain ⟨m, hm, hpart⟩ := List.mem_flatMap.mp h
    exact List.mem_flatMap.mpr ⟨m, hm, signature (List.all_eq_true.mp hplain m hm) hpart⟩
  cases s with
  | cls body =>
    simp only [parts, visited, List.mem_append] at h ⊢
    exact h.imp_left (Or.imp_left (Or.imp_right (methods hplain)))
  | interface body =>
    simp only [parts, visited, List.mem_append] at h ⊢
    exact h.imp_left (methods hplain)
  | fn s => exact signature hplain h
  | coroutine s => exact signature hplain h
  | generic g =>
    have hnone : g.constraint = none := by simpa [isUnconstrained] using hplain
    simp [parts, hnone] at h
  | error e => exact absurd rfl (herror e)
  | _ => exact h

end Shape

namespace Ty

variable {t : Ty} {bound : List String}

/-! ## What the search finds -/

/-- Whether a generic parameter is found in a type that stands below bound names. -/
def hasGenericsUnder (t : Ty) (bound : List String) : Bool :=
  t.foldWith (fun _ => hasGenericsStep) bound

theorem hasGenericsStep_eq {parts : Shape (List String → Bool)} (h : ∀ g, parts ≠ .generic g) (bound : List String) :
    hasGenericsStep parts bound = parts.scopedSearched.any fun part => part.2 (bound ++ part.1) := by
  cases parts with
  | generic g => exact absurd rfl (h g)
  | _ =>
    simp [hasGenericsStep, hasGenericsStep.open?, Shape.scopedSearched, Shape.mapUnder, Shape.mapFields,
      Shape.mapMethods, Shape.searched, Shape.visited, Shape.parts, Signature.visited, Signature.paramTypes,
      Signature.mapUnder, List.any_flatMap, Function.comp_def]

theorem hasGenericsUnder_generic {g : Generic Ty} (h : t.shape = .generic g) :
    t.hasGenericsUnder bound = !bound.contains g.name := by
  rw [hasGenericsUnder, foldWith_eq, h]
  rfl

/-- `hasGenericsUnder` goes through `scopedSearched`, unless the type is a parameter itself. -/
theorem hasGenericsUnder_eq (h : ∀ g, t.shape ≠ .generic g) :
    t.hasGenericsUnder bound = t.shape.scopedSearched.any fun part => part.2.hasGenericsUnder (bound ++ part.1) := by
  have hne : ∀ g, t.shape.map hasGenericsUnder ≠ .generic g := by
    intro g hg
    cases hshape : t.shape with
    | generic g' => exact h g' hshape
    | _ => simp [hshape, Shape.map, Shape.mapUnder] at hg
  rw [hasGenericsUnder, foldWith_eq]
  show hasGenericsStep (t.shape.map hasGenericsUnder) bound = _
  rw [hasGenericsStep_eq hne, Shape.scopedSearched_map, List.any_map]
  rfl

/-- The places where generic parameters occur in skipped parts of a type that stands below bound names: the skipped
parts of the type itself, and of its searched parts in turn. -/
def hiddenUnder (t : Ty) (bound : List String) : List Occurrence :=
  t.foldWith (fun t parts bound =>
    (t.shape.scopedSkipped.flatMap fun part => part.2.occurrencesUnder (part.1 ++ bound)) ++
      parts.scopedSearched.flatMap fun part => part.2 (part.1 ++ bound)) bound

theorem hiddenUnder_eq :
    t.hiddenUnder bound =
      (t.shape.scopedSkipped.flatMap fun part => part.2.occurrencesUnder (part.1 ++ bound)) ++
        t.shape.scopedSearched.flatMap fun part => part.2.hiddenUnder (part.1 ++ bound) := by
  rw [hiddenUnder, foldWith_eq, Shape.scopedSearched_map, List.flatMap_map]
  rfl

/-- The names of the generic parameters that occur free in a skipped part, each as often as it does. -/
def hiddenNames (t : Ty) : List String :=
  ((t.hiddenUnder []).filter Occurrence.isFree).map Occurrence.name

/-- `occurrencesUnder` has no free occurrence exactly if `hasGenericsUnder` finds none and `hiddenUnder` has none. -/
theorem forall_occurrencesUnder_iff {names : List String} (hnames : ∀ name, name ∈ names ↔ name ∈ bound) :
    (∀ o ∈ t.occurrencesUnder bound, o.isFree = false) ↔
      t.hasGenericsUnder names = false ∧ ∀ o ∈ t.hiddenUnder bound, o.isFree = false := by
  induction t using induction_on_parts generalizing bound names with
  | step t ih =>
    by_cases hgeneric : ∃ g, t.shape = .generic g
    · obtain ⟨g, hg⟩ := hgeneric
      rw [occurrencesUnder_generic hg, hasGenericsUnder_generic hg, hiddenUnder_eq, hg]
      simp [Occurrence.isFree, hnames, Shape.scopedSkipped, Shape.scopedSearched, Shape.mapUnder, Shape.skipped,
        Shape.searched, Shape.visited]
    · have hne : ∀ g, t.shape ≠ .generic g := fun g hg => hgeneric ⟨g, hg⟩
      have hsearched (part : List String × Ty) (hpart : part ∈ t.shape.scopedSearched) :
          (∀ o ∈ part.2.occurrencesUnder (part.1 ++ bound), o.isFree = false) ↔
            part.2.hasGenericsUnder (names ++ part.1) = false ∧
              ∀ o ∈ part.2.hiddenUnder (part.1 ++ bound), o.isFree = false :=
        ih part.2 (Shape.mem_parts_of_mem_scopedParts (Shape.mem_scopedParts_iff.mpr (.inl hpart)))
          (by simp [hnames, or_comm])
      rw [occurrencesUnder_eq hne, hasGenericsUnder_eq hne, hiddenUnder_eq]
      constructor
      · intro hfree
        have hparts (part : List String × Ty) (hpart : part ∈ t.shape.scopedParts) :
            ∀ o ∈ part.2.occurrencesUnder (part.1 ++ bound), o.isFree = false :=
          fun o ho => hfree o (List.mem_flatMap.mpr ⟨part, hpart, ho⟩)
        have hfound (part : List String × Ty) (hpart : part ∈ t.shape.scopedSearched) :=
          (hsearched part hpart).mp (hparts part (Shape.mem_scopedParts_iff.mpr (.inl hpart)))
        refine ⟨List.any_eq_false.mpr fun part hpart => by simp [(hfound part hpart).1], fun o ho => ?_⟩
        rcases List.mem_append.mp ho with ho | ho
        · obtain ⟨part, hpart, ho⟩ := List.mem_flatMap.mp ho
          exact hparts part (Shape.mem_scopedParts_iff.mpr (.inr hpart)) o ho
        · obtain ⟨part, hpart, ho⟩ := List.mem_flatMap.mp ho
          exact (hfound part hpart).2 o ho
      · rintro ⟨hfound, hhidden⟩ o ho
        obtain ⟨part, hpart, ho⟩ := List.mem_flatMap.mp ho
        rcases Shape.mem_scopedParts_iff.mp hpart with hpart | hpart
        · have hnone : part.2.hasGenericsUnder (names ++ part.1) = false := by
            simpa using List.any_eq_false.mp hfound part hpart
          refine (hsearched part hpart).mpr ⟨hnone, fun o ho => ?_⟩ o ho
          exact hhidden o (List.mem_append_right _ (List.mem_flatMap.mpr ⟨part, hpart, ho⟩))
        · exact hhidden o (List.mem_append_left _ (List.mem_flatMap.mpr ⟨part, hpart, ho⟩))

theorem freeNames_eq_nil_iff : t.freeNames = [] ↔ ∀ o ∈ t.occurrences, o.isFree = false := by
  simp [freeNames]

/-- `freeNames` is empty exactly if `hasGenerics` finds nothing and `hiddenNames` is empty. -/
theorem freeNames_eq_nil_iff_hasGenerics (t : Ty) :
    t.freeNames = [] ↔ t.hasGenerics = false ∧ t.hiddenNames = [] := by
  have hhidden : t.hiddenNames = [] ↔ ∀ o ∈ t.hiddenUnder [], o.isFree = false := by
    simp [hiddenNames]
  rw [freeNames_eq_nil_iff, hhidden]
  exact forall_occurrencesUnder_iff fun _ => Iff.rfl

/-! ## What substitutions change -/

/-- Whether no generic parameter in a type has a bound. -/
def isUnconstrained (t : Ty) : Bool :=
  t.everywhere (·.shape.isUnconstrained)

/-- `substitute` leaves a type alone that has no free occurrence. -/
theorem erase_substitute_of_closed (bindings : Bindings) (hclosed : ∀ o ∈ t.occurrencesUnder bound, o.isFree = false)
    (hnormal : t.isNormal = true) (hplain : t.isUnconstrained = true) :
    (t.substitute (bindings.shadow bound)).erase = t.erase := by
  -- the induction is over the type, and the names that are bound around it grow on the way down
  induction t using induction_on_parts generalizing bound with
  | step t ih =>
    rw [isNormal, everywhere_iff] at hnormal
    rw [isUnconstrained, everywhere_iff] at hplain
    cases hempty : (bindings.shadow bound).isEmpty with
    | true => rw [substitute_of_isEmpty hempty]
    | false =>
      apply erase_substitute_of_replaced hempty hnormal.1
      · -- a parameter is bound by a signature around it, which hides the binding
        intro g hg
        have hbound := hclosed ⟨g.name, bound⟩ (by rw [occurrencesUnder_generic hg]; exact List.mem_singleton_self _)
        simp only [Occurrence.isFree, Bool.not_eq_false'] at hbound
        rw [Bindings.get?_shadow, if_pos hbound]
      · intro herror
        rw [erase_replaced, erase_eq t, Shape.erasedWith, Shape.map]
        congr 2
        apply Shape.mapUnder_congr_scoped
        intro part hpart
        -- without bounds the pass goes through no other places than those that are counted
        have hscoped : part ∈ t.shape.scopedParts := by
          apply Shape.mem_visited_of_mem_parts _ _ hpart
          · rw [Shape.isUnconstrained_mapUnder, hplain.1]
          · intro e he
            obtain ⟨e', he', -⟩ := Shape.exists_error_of_mapUnder he
            exact herror e' he'
        have hmem := Shape.mem_parts_of_mem_scopedParts hscoped
        rw [Bindings.shadow_shadow]
        apply ih part.2 hmem _ (hnormal.2 part.2 hmem) (hplain.2 part.2 hmem)
        intro o ho
        apply hclosed
        rw [occurrencesUnder_eq fun g hg => by simp [hg, Shape.scopedParts, Shape.mapUnder, Shape.visited] at hscoped]
        exact List.mem_flatMap.mpr ⟨part, hscoped, ho⟩

theorem occurrencesUnder_erase (t : Ty) (bound : List String) :
    t.erase.occurrencesUnder bound = t.occurrencesUnder bound := by
  induction t using induction_on_parts generalizing bound with
  | step t ih =>
    by_cases hgeneric : ∃ g, t.shape = .generic g
    · obtain ⟨g, hg⟩ := hgeneric
      have herase : t.erase.shape = .generic { g with constraint := g.constraint.map erase } := by
        rw [erase_shape, hg]
        rfl
      rw [occurrencesUnder_generic hg, occurrencesUnder_generic herase]
    · have hne : ∀ g, t.shape ≠ .generic g := fun g hg => hgeneric ⟨g, hg⟩
      have hne' : ∀ g, t.erase.shape ≠ .generic g := by
        intro g hg
        rw [erase_shape] at hg
        cases hshape : t.shape with
        | generic g' => exact hne g' hshape
        | _ => simp [hshape, Shape.erasedWith, Shape.map, Shape.mapUnder, Shape.forgetOrigins] at hg
      rw [occurrencesUnder_eq hne, occurrencesUnder_eq hne', erase_shape, Shape.erasedWith,
        Shape.scopedParts_forgetOrigins, Shape.map, Shape.scopedParts_mapUnder, List.flatMap_map]
      apply List.flatMap_congr
      intro part hpart
      exact ih part.2 (Shape.mem_parts_of_mem_scopedParts hpart) _

/-- `freeNames` does not depend on back-references. -/
theorem freeNames_of_same {u : Ty} (h : t.same u = true) : t.freeNames = u.freeNames := by
  have herase (t : Ty) : t.erase.freeNames = t.freeNames := by
    rw [freeNames, occurrences, occurrencesUnder_erase]
    rfl
  rw [← herase t, ← herase u, (same_iff_erase_eq t u).mp h]

/-- `freeNames` is empty for exactly the types that no `substitute` changes, among those that are `isNormal` and
`isUnconstrained`. -/
theorem freeNames_eq_nil_iff_substitute (hnormal : t.isNormal = true) (hplain : t.isUnconstrained = true) :
    t.freeNames = [] ↔ ∀ bindings, (t.substitute bindings).same t = true := by
  constructor
  · intro hclosed bindings
    have herase := erase_substitute_of_closed bindings (freeNames_eq_nil_iff.mp hclosed) hnormal hplain
    rw [Bindings.shadow_nil] at herase
    exact (same_iff_erase_eq _ t).mpr herase
  · intro hfixed
    by_contra hfree
    -- a free name is gone once `never` is put in its place
    obtain ⟨name, hname⟩ := List.exists_mem_of_ne_nil _ hfree
    have hgone : name ∉ (t.substitute ⟨[(name, never)]⟩).freeNames := by
      rw [mem_freeNames_substitute]
      rintro (⟨-, hnone⟩ | ⟨o, -, -, value, hvalue, hmem, -⟩)
      · simp [Table.get?] at hnone
      · obtain rfl : value = never := by
          have hentry := Bindings.mem_values_of_get? hvalue
          simpa [Table.values] using hentry
        cases hmem
    rw [freeNames_of_same (hfixed _)] at hgone
    exact hgone hname

/-- `hasGenerics` agrees with `substitute`, but for what is hidden from it. A type that is `isNormal` and
`isUnconstrained` is left alone by every substitution exactly if `hasGenerics` finds no parameter in it and
`hiddenNames` has none: no parameter occurs free in an interface that a class or an interface is declared below or
implements, in the variant of a constructor, or in the parameters of a constructor. These are the types with empty
`freeNames`. -/
theorem hasGenerics_iff_substitute (t : Ty) (hnormal : t.isNormal = true) (hplain : t.isUnconstrained = true) :
    (t.hasGenerics = false ∧ t.hiddenNames = [] ↔ ∀ bindings, (t.substitute bindings).same t = true) ∧
      (t.hasGenerics = false ∧ t.hiddenNames = [] ↔ t.freeNames = []) := by
  have hfree := freeNames_eq_nil_iff_hasGenerics t
  exact ⟨hfree.symm.trans (freeNames_eq_nil_iff_substitute hnormal hplain), hfree.symm⟩

/-- `class {length: u32; fn map<U>(x: U) -> U[]}`, declared below `Seq<item>`. -/
def sequence (item : Ty) : Ty :=
  of (.cls {
    attributes := [{ name := "length", type := prim .u32 }]
    methods := [{
      names := { primary := "map" }
      signature := {
        params := [{ name := "x", type := of (.generic { name := "U" }) }]
        result := array (of (.generic { name := "U" }))
        generics := [{ name := "U" }] } }]
    supers := [reference 0 "Seq" [item]] })

/-- Nothing is free in the sequence of `u8`: its method binds `U`. -/
theorem sequence_closed :
    (sequence (prim .u8)).hasGenerics = false ∧
      ∀ bindings, ((sequence (prim .u8)).substitute bindings).same (sequence (prim .u8)) = true := by
  have hfound : (sequence (prim .u8)).hasGenerics = false ∧ (sequence (prim .u8)).hiddenNames = [] := by
    decide +kernel
  have hnormal : (sequence (prim .u8)).isNormal = true := by decide +kernel
  have hplain : (sequence (prim .u8)).isUnconstrained = true := by decide +kernel
  exact ⟨hfound.1, (hasGenerics_iff_substitute (sequence (prim .u8)) hnormal hplain).1.mp hfound⟩

/-- No parameter is found in the sequence of `T`, and yet it changes once `T` is bound. -/
theorem sequence_open :
    (sequence (of (.generic { name := "T" }))).isNormal = true ∧
      (sequence (of (.generic { name := "T" }))).isUnconstrained = true ∧
      (sequence (of (.generic { name := "T" }))).hasGenerics = false ∧
      ((sequence (of (.generic { name := "T" }))).substitute ⟨[("T", prim .u8)]⟩).same
        (sequence (of (.generic { name := "T" }))) = false := by
  decide +kernel

end Ty

end Ascribe
