import Mathlib.Data.List.Basic
import Ascribe.Proofs.Ty.Substitution

/-!
# Generic parameters that occur free

A generic parameter occurs in a type at some places, and around each place some signatures bind names of
their own (`Ty.occurrences`). An occurrence is free if its own name is not bound around it. The constraints
of parameters are not counted, nor what an error expected instead.

A substitution puts a type in place of each free occurrence of a name that it binds, and nothing else
(`Ty.occurrences_substitute`). The type comes to stand under the signatures around the place, and it is not
looked at whether they bind a name that is free in it. Such a name is captured: it was free in the type that
was put there, and is not free in the result (`Ty.captures`). So the free names of the result are those that
one expects exactly as far as nothing is captured.

## Key results

- `Ty.occurrences_substitute`: the occurrences in the result, one by one
- `Ty.mem_freeNames_substitute`: the names that are free in the result, captured ones left out
- `Ty.freeNames_substitute`: the same where nothing is captured
- `Ty.transformer_captured`: a name is captured when a method has a parameter with that name
-/

namespace Ascribe

variable {α β : Type}

/-! ## The parts that are counted -/

/-- The parts of a signature but for the constraints of its generic parameters. -/
def Signature.visited (s : Signature α) : List α :=
  s.paramTypes ++ [s.result]

namespace Shape

/-- The parts of a shape but for constraints and for what an error expected. -/
def visited : Shape α → List α
  | .cls body =>
    body.attributes.map (·.type) ++ body.methods.flatMap (·.signature.visited) ++ body.supers ++ body.impls
  | .interface body => body.methods.flatMap (·.signature.visited) ++ body.supers
  | .fn s | .coroutine s => s.visited
  | .generic _ | .error _ => []
  | s => s.parts

theorem visited_map (f : α → β) (s : Shape α) : (s.map f).visited = s.visited.map f := by
  have signature (s : Signature α) : (s.mapUnder fun _ => f).visited = s.visited.map f := by
    simp [Signature.visited, Signature.paramTypes, Signature.mapUnder, Function.comp_def]
  cases s <;>
    simp [map, mapUnder, mapFields, mapMethods, visited, parts, signature, Function.comp_def,
      List.map_flatMap, List.flatMap_map]

theorem mem_parts_of_mem_visited {s : Shape α} {part : α} (h : part ∈ s.visited) : part ∈ s.parts := by
  have signature {s : Signature α} (h : part ∈ s.visited) : part ∈ s.parts := by
    simp only [Signature.visited, Signature.parts, List.mem_append, List.mem_cons, List.not_mem_nil,
      or_false] at h ⊢
    exact h.imp_right .inl
  have methods {methods : List (Method α)} (h : part ∈ methods.flatMap (·.signature.visited)) :
      part ∈ methods.flatMap (·.signature.parts) := by
    obtain ⟨m, hm, hpart⟩ := List.mem_flatMap.mp h
    exact List.mem_flatMap.mpr ⟨m, hm, signature hpart⟩
  cases s with
  | cls body =>
    simp only [visited, parts, List.mem_append] at h ⊢
    exact h.imp_left (Or.imp_left (Or.imp_right methods))
  | interface body =>
    simp only [visited, parts, List.mem_append] at h ⊢
    exact h.imp_left methods
  | fn s => exact signature h
  | coroutine s => exact signature h
  | generic g => cases h
  | error e => cases h
  | _ => exact h

/-- The counted parts of a shape, each with the names that are bound around it. -/
def scopedParts (s : Shape α) : List (List String × α) :=
  (s.mapUnder Prod.mk).visited

/-- `mapUnder` leaves the names that `scopedParts` gives around the parts. -/
theorem scopedParts_mapUnder (f : List String → α → β) (s : Shape α) :
    (s.mapUnder f).scopedParts = s.scopedParts.map fun part => (part.1, f part.1 part.2) := by
  rw [scopedParts, scopedParts, ← visited_map, mapUnder_mapUnder, map, mapUnder_mapUnder]

theorem mem_parts_of_mem_scopedParts {s : Shape α} {part : List String × α} (h : part ∈ s.scopedParts) :
    part.2 ∈ s.parts := by
  have names : (s.mapUnder Prod.mk).map Prod.snd = s.map id := by
    rw [map, mapUnder_mapUnder]
    rfl
  have hmem := List.mem_map_of_mem (f := Prod.snd) (mem_parts_of_mem_visited h)
  rwa [← parts_map, names, parts_map, List.map_id] at hmem

end Shape

/-! ## Occurrences -/

/-- A place where a generic parameter occurs. -/
structure Occurrence where
  name : String
  /-- The names that signatures bind around the place, the innermost first. -/
  binders : List String
  deriving DecidableEq

/-- Whether no signature around the place binds the parameter. -/
def Occurrence.isFree (o : Occurrence) : Bool :=
  !o.binders.contains o.name

theorem Occurrence.isFree_iff {o : Occurrence} : o.isFree = true ↔ o.name ∉ o.binders := by
  simp [isFree]

namespace Ty

/-- One layer of the search for occurrences, below the names that are bound. -/
def occurrencesStep (parts : Shape (List String → List Occurrence)) (bound : List String) :
    List Occurrence :=
  match parts with
  | .generic g => [⟨g.name, bound⟩]
  | _ => parts.scopedParts.flatMap fun part => part.2 (part.1 ++ bound)

/-- The places where generic parameters occur in a type that stands below bound names. -/
def occurrencesUnder (t : Ty) (bound : List String) : List Occurrence :=
  t.foldWith (fun _ => occurrencesStep) bound

/-- The places where generic parameters occur in a type. -/
def occurrences (t : Ty) : List Occurrence :=
  t.occurrencesUnder []

/-- The names of the generic parameters that occur free, each as often as it does. -/
def freeNames (t : Ty) : List String :=
  (t.occurrences.filter Occurrence.isFree).map Occurrence.name

variable {t : Ty} {bindings : Bindings} {bound : List String} {name : String}

theorem mem_freeNames : name ∈ t.freeNames ↔ ∃ o ∈ t.occurrences, o.isFree = true ∧ o.name = name := by
  simp [freeNames, and_assoc]

theorem occurrencesUnder_generic {g : Generic Ty} (h : t.shape = .generic g) :
    t.occurrencesUnder bound = [⟨g.name, bound⟩] := by
  rw [occurrencesUnder, foldWith_eq, h]
  rfl

/-- `occurrencesUnder` of a type that is no parameter are those of its `scopedParts`. -/
theorem occurrencesUnder_eq (h : ∀ g, t.shape ≠ .generic g) :
    t.occurrencesUnder bound =
      t.shape.scopedParts.flatMap fun part => part.2.occurrencesUnder (part.1 ++ bound) := by
  have parts : occurrencesStep (t.shape.map occurrencesUnder) bound =
      (t.shape.map occurrencesUnder).scopedParts.flatMap fun part => part.2 (part.1 ++ bound) := by
    cases hshape : t.shape with
    | generic g => exact absurd hshape (h g)
    | _ => rfl
  rw [occurrencesUnder, foldWith_eq]
  show occurrencesStep (t.shape.map occurrencesUnder) bound = _
  rw [parts, Shape.map, Shape.scopedParts_mapUnder, List.flatMap_map]

/-- `nullable` adds no occurrence and drops none. -/
theorem occurrencesUnder_nullable (base : Ty) (bound : List String) :
    base.nullable.occurrencesUnder bound = base.occurrencesUnder bound := by
  rw [nullable_eq]
  split
  · rw [occurrencesUnder_eq (by simp [of])]
    simp [of, Shape.scopedParts, Shape.mapUnder, Shape.visited, Shape.parts]
  · rfl

/-- `occurrencesUnder bound` are the `occurrences` with `bound` around them, further out than what the type binds
itself. -/
theorem occurrencesUnder_eq_map (t : Ty) (bound : List String) :
    t.occurrencesUnder bound = t.occurrences.map fun o => ⟨o.name, o.binders ++ bound⟩ := by
  -- the names are put below those that are bound already, so that the induction goes through
  have below (bound inner : List String) :
      t.occurrencesUnder (inner ++ bound) =
        (t.occurrencesUnder inner).map fun o => ⟨o.name, o.binders ++ bound⟩ := by
    induction t using induction_on_parts generalizing inner with
    | step t ih =>
      by_cases hgeneric : ∃ g, t.shape = .generic g
      · obtain ⟨g, hg⟩ := hgeneric
        simp [occurrencesUnder_generic hg]
      · have hne : ∀ g, t.shape ≠ .generic g := fun g hg => hgeneric ⟨g, hg⟩
        rw [occurrencesUnder_eq hne, occurrencesUnder_eq hne, List.map_flatMap]
        refine List.flatMap_congr fun part hpart => ?_
        rw [← List.append_assoc]
        exact ih part.2 (Shape.mem_parts_of_mem_scopedParts hpart) _
  exact below bound []

end Ty

/-! ## Occurrences after a substitution -/

namespace Bindings

theorem shadow_shadow (bindings : Bindings) (outer inner : List String) :
    (bindings.shadow outer).shadow inner = bindings.shadow (inner ++ outer) := by
  simp only [shadow, Table.without, List.filter_filter, List.contains_append, Bool.not_or]

theorem get?_of_isEmpty {bindings : Bindings} (h : bindings.isEmpty = true) (name : String) :
    bindings.get? name = none := by
  obtain ⟨entries⟩ := bindings
  obtain rfl : entries = [] := List.isEmpty_iff.mp h
  rfl

theorem isEmpty_shadow {bindings : Bindings} (h : bindings.isEmpty = true) (names : List String) :
    (bindings.shadow names).isEmpty = true := by
  obtain ⟨entries⟩ := bindings
  obtain rfl : entries = [] := List.isEmpty_iff.mp h
  rfl

end Bindings

/-- What stands at a place after a substitution: the occurrences of the type that is put there, or the
parameter as before. -/
def Occurrence.replaced (bindings : Bindings) (o : Occurrence) : List Occurrence :=
  match (bindings.shadow o.binders).get? o.name with
  | some value => value.occurrencesUnder o.binders
  | none => [o]

namespace Ty

variable {t : Ty} {bindings : Bindings} {bound : List String} {name : String}

theorem occurrencesUnder_replaced (h : ∀ g, t.shape ≠ .generic g) :
    (t.replaced bindings).occurrencesUnder bound =
      t.shape.scopedParts.flatMap fun part =>
        (part.2.substitute (bindings.shadow part.1)).occurrencesUnder (part.1 ++ bound) := by
  have hne : ∀ g, (t.replaced bindings).shape ≠ .generic g := by
    intro g hg
    simp only [replaced] at hg
    cases hshape : t.shape with
    | generic g' => exact h g' hshape
    | _ => simp [hshape, Shape.mapUnder] at hg
  rw [occurrencesUnder_eq hne, replaced, Shape.scopedParts_mapUnder, List.flatMap_map]

/-- `substitute` puts types in the places of the free parameters that it binds (`Occurrence.replaced`), and leaves all
other places as they are. -/
theorem occurrencesUnder_substitute (t : Ty) (bindings : Bindings) (bound : List String) :
    (t.substitute (bindings.shadow bound)).occurrencesUnder bound =
      (t.occurrencesUnder bound).flatMap (·.replaced bindings) := by
  induction t using induction_on_parts generalizing bound with
  | step t ih =>
    by_cases hgeneric : ∃ g, t.shape = .generic g
    · -- the parameter itself stands in the place
      obtain ⟨g, hg⟩ := hgeneric
      rw [occurrencesUnder_generic hg, List.flatMap_singleton, Occurrence.replaced]
      cases hempty : (bindings.shadow bound).isEmpty with
      | true =>
        rw [substitute_of_isEmpty hempty, Bindings.get?_of_isEmpty hempty]
        exact occurrencesUnder_generic hg
      | false =>
        rw [substitute_eq t hempty, hg]
        show ((Table.get? (bindings.shadow bound) g.name).getD _).occurrencesUnder bound = _
        cases (bindings.shadow bound).get? g.name with
        | some value => rfl
        | none =>
          have still : (t.replaced (bindings.shadow bound)).shape =
              .generic { g with
                constraint := g.constraint.map (·.substitute ((bindings.shadow bound).shadow [])) } := by
            rw [replaced, hg, Shape.mapUnder]
          show (t.replaced (bindings.shadow bound)).occurrencesUnder bound = _
          rw [occurrencesUnder_generic still]
    · -- the places are those in the parts, each below what the type binds around it
      have hne : ∀ g, t.shape ≠ .generic g := fun g hg => hgeneric ⟨g, hg⟩
      have parts : (t.shape.scopedParts.flatMap fun part =>
          (part.2.substitute ((bindings.shadow bound).shadow part.1)).occurrencesUnder (part.1 ++ bound)) =
            (t.occurrencesUnder bound).flatMap (·.replaced bindings) := by
        rw [occurrencesUnder_eq hne, List.flatMap_assoc]
        refine List.flatMap_congr fun part hpart => ?_
        rw [Bindings.shadow_shadow]
        exact ih part.2 (Shape.mem_parts_of_mem_scopedParts hpart) _
      cases hempty : (bindings.shadow bound).isEmpty with
      | true =>
        rw [substitute_of_isEmpty hempty, ← parts, occurrencesUnder_eq hne]
        refine List.flatMap_congr fun part hpart => ?_
        rw [substitute_of_isEmpty (Bindings.isEmpty_shadow hempty part.1)]
      | false =>
        rw [substitute_eq t hempty, ← parts, ← occurrencesUnder_replaced hne]
        cases hshape : t.shape with
        | generic g => exact absurd hshape (hne g)
        | nullable base =>
          show (base.substitute (bindings.shadow bound)).nullable.occurrencesUnder bound = _
          rw [occurrencesUnder_nullable, occurrencesUnder_replaced hne, hshape]
          simp [Shape.scopedParts, Shape.mapUnder, Shape.visited, Shape.parts]
        | error e =>
          rw [occurrencesUnder_eq hne, occurrencesUnder_replaced hne, hshape]
          rfl
        | _ => rfl

theorem occurrences_substitute (t : Ty) (bindings : Bindings) :
    (t.substitute bindings).occurrences = t.occurrences.flatMap (·.replaced bindings) := by
  have places := occurrencesUnder_substitute t bindings []
  rwa [Bindings.shadow_nil] at places

/-! ## Free names after a substitution -/

/-- A name is free in `Occurrence.replaced` if it is the free parameter of that place, which is not bound, or free in
the type that is put there and not captured. -/
theorem exists_free_replaced {o : Occurrence} :
    (∃ o' ∈ o.replaced bindings, o'.isFree = true ∧ o'.name = name) ↔
      (o.isFree = true ∧ o.name = name ∧ bindings.get? name = none) ∨
        (o.isFree = true ∧ ∃ value, bindings.get? o.name = some value ∧ name ∈ value.freeNames ∧
          name ∉ o.binders) := by
  simp only [Occurrence.replaced, Bindings.get?_shadow, Occurrence.isFree_iff, List.contains_iff_mem]
  by_cases hbound : o.name ∈ o.binders
  · simp [hbound]
  · rw [if_neg hbound]
    cases hvalue : bindings.get? o.name with
    | none =>
      simp only [List.mem_singleton, exists_eq_left, hbound, not_false_eq_true, true_and, reduceCtorEq,
        false_and, exists_false, or_false]
      constructor
      · rintro rfl
        exact ⟨rfl, hvalue⟩
      · exact And.left
    | some value =>
      have unbound : ¬ (o.name = name ∧ bindings.get? name = none) := by
        rintro ⟨rfl, hnone⟩
        rw [hvalue] at hnone
        cases hnone
      simp only [hbound, not_false_eq_true, true_and, unbound, false_or, Option.some.injEq, exists_eq_left',
        occurrencesUnder_eq_map, List.mem_map, mem_freeNames, Occurrence.isFree_iff]
      constructor
      · rintro ⟨_, ⟨o', ho', rfl⟩, hfree, rfl⟩
        rw [List.mem_append, not_or] at hfree
        exact ⟨⟨o', ho', hfree.1, rfl⟩, hfree.2⟩
      · rintro ⟨⟨o', ho', hfree, rfl⟩, houter⟩
        refine ⟨_, ⟨o', ho', rfl⟩, ?_, rfl⟩
        rw [List.mem_append, not_or]
        exact ⟨hfree, houter⟩

/-- `freeNames` after `substitute`: those that were free and are not bound, and those that are free in a type which is
put in some place and not bound around that place. -/
theorem mem_freeNames_substitute (t : Ty) (bindings : Bindings) (name : String) :
    name ∈ (t.substitute bindings).freeNames ↔
      (name ∈ t.freeNames ∧ bindings.get? name = none) ∨
        ∃ o ∈ t.occurrences, o.isFree = true ∧ ∃ value, bindings.get? o.name = some value ∧
          name ∈ value.freeNames ∧ name ∉ o.binders := by
  simp only [mem_freeNames (t := t.substitute bindings), occurrences_substitute, List.mem_flatMap]
  constructor
  · rintro ⟨o', ⟨o, ho, ho'⟩, hfree⟩
    obtain ⟨hofree, rfl, hnone⟩ | hput := exists_free_replaced.mp ⟨o', ho', hfree⟩
    · exact .inl ⟨mem_freeNames.mpr ⟨o, ho, hofree, rfl⟩, hnone⟩
    · exact .inr ⟨o, ho, hput⟩
  · rintro (⟨hname, hnone⟩ | ⟨o, ho, hput⟩)
    · obtain ⟨o, ho, hofree, rfl⟩ := mem_freeNames.mp hname
      obtain ⟨o', ho', hfree⟩ := exists_free_replaced.mpr (.inl ⟨hofree, rfl, hnone⟩)
      exact ⟨o', ⟨o, ho, ho'⟩, hfree⟩
    · obtain ⟨o', ho', hfree⟩ := exists_free_replaced.mpr (.inr hput)
      exact ⟨o', ⟨o, ho, ho'⟩, hfree⟩

/-- Whether a type is put in some place where a signature binds a name that is free in it. -/
def captures (t : Ty) (bindings : Bindings) : Bool :=
  t.occurrences.any fun o =>
    o.isFree && (bindings.get? o.name).any fun value => value.freeNames.any o.binders.contains

theorem not_mem_binders_of_captures (h : t.captures bindings = false) {o : Occurrence}
    (ho : o ∈ t.occurrences) (hfree : o.isFree = true) {value : Ty}
    (hvalue : bindings.get? o.name = some value) (hname : name ∈ value.freeNames) : name ∉ o.binders := by
  intro hbinder
  have hcaptured : t.captures bindings = true := by
    simp only [captures, List.any_eq_true, Bool.and_eq_true]
    refine ⟨o, ho, hfree, ?_⟩
    rw [hvalue, Option.any_some, List.any_eq_true]
    exact ⟨name, hname, by simpa using hbinder⟩
  rw [h] at hcaptured
  cases hcaptured

/-- `freeNames` after `substitute`. If `captures` is false they are the free names that are not bound, together with the
free names of what is bound to a free name. In general a name that is free in such a type is left out at the places
where it is captured. -/
theorem freeNames_substitute (t : Ty) (bindings : Bindings) :
    (t.captures bindings = false → ∀ name,
      name ∈ (t.substitute bindings).freeNames ↔
        (name ∈ t.freeNames ∧ bindings.get? name = none) ∨
          ∃ x ∈ t.freeNames, ∃ value, bindings.get? x = some value ∧ name ∈ value.freeNames) ∧
    (∀ name,
      name ∈ (t.substitute bindings).freeNames ↔
        (name ∈ t.freeNames ∧ bindings.get? name = none) ∨
          ∃ o ∈ t.occurrences, o.isFree = true ∧ ∃ value, bindings.get? o.name = some value ∧
            name ∈ value.freeNames ∧ name ∉ o.binders) := by
  refine ⟨fun hcaptures name => ?_, mem_freeNames_substitute t bindings⟩
  rw [mem_freeNames_substitute]
  refine or_congr_right ?_
  constructor
  · rintro ⟨o, ho, hfree, value, hvalue, hname, -⟩
    exact ⟨o.name, mem_freeNames.mpr ⟨o, ho, hfree, rfl⟩, value, hvalue, hname⟩
  · rintro ⟨x, hx, value, hvalue, hname⟩
    obtain ⟨o, ho, hfree, rfl⟩ := mem_freeNames.mp hx
    exact ⟨o, ho, hfree, value, hvalue, hname, not_mem_binders_of_captures hcaptures ho hfree hvalue hname⟩

/-- `interface { map: fn<U>(f: fn(T) -> U) -> U[] }`. -/
def transformer : Ty :=
  of (.interface {
    methods := [{
      names := { primary := "map" }
      signature := {
        params := [{
          name := "f"
          type := function {
            params := [{ name := "x", type := of (.generic { name := "T" }) }]
            result := of (.generic { name := "U" }) } }]
        result := array (of (.generic { name := "U" }))
        generics := [{ name := "U" }] } }] })

/-- With `T` bound to `V[]` the name `V` is free, and nothing else. -/
theorem transformer_free :
    transformer.captures ⟨[("T", array (of (.generic { name := "V" })))]⟩ = false ∧
      ∀ name, name ∈ (transformer.substitute ⟨[("T", array (of (.generic { name := "V" })))]⟩).freeNames ↔
        name = "V" := by
  have hcaptures : transformer.captures ⟨[("T", array (of (.generic { name := "V" })))]⟩ = false := by
    decide +kernel
  refine ⟨hcaptures, fun name => ?_⟩
  rw [(freeNames_substitute transformer _).1 hcaptures]
  have hfree : transformer.freeNames = ["T"] := by decide +kernel
  have hvalue : (array (of (.generic { name := "V" }))).freeNames = ["V"] := by decide +kernel
  have hbound : Table.get? (⟨[("T", array (of (.generic { name := "V" })))]⟩ : Bindings) "T" =
      some (array (of (.generic { name := "V" }))) := rfl
  constructor
  · rintro (⟨hname, hnone⟩ | ⟨x, hx, value, hx', hname⟩)
    · rw [hfree, List.mem_singleton] at hname
      rw [hname, hbound] at hnone
      cases hnone
    · rw [hfree, List.mem_singleton] at hx
      rw [hx, hbound] at hx'
      rwa [← Option.some.inj hx', hvalue, List.mem_singleton] at hname
  · rintro rfl
    exact .inr ⟨"T", by rw [hfree]; exact List.mem_singleton_self _, _, hbound,
      by rw [hvalue]; exact List.mem_singleton_self _⟩

/-- With `T` bound to `U` the name `U` should be free and is not: the method binds it. -/
theorem transformer_captured :
    ¬ ∀ name, name ∈ (transformer.substitute ⟨[("T", of (.generic { name := "U" }))]⟩).freeNames ↔
      (name ∈ transformer.freeNames ∧
        Table.get? (⟨[("T", of (.generic { name := "U" }))]⟩ : Bindings) name = none) ∨
      ∃ x ∈ transformer.freeNames, ∃ value,
        Table.get? (⟨[("T", of (.generic { name := "U" }))]⟩ : Bindings) x = some value ∧
          name ∈ value.freeNames := by
  intro hfree
  have hcaptured : "U" ∉ (transformer.substitute ⟨[("T", of (.generic { name := "U" }))]⟩).freeNames := by
    decide +kernel
  have hT : "T" ∈ transformer.freeNames := by decide +kernel
  have hU : "U" ∈ (of (.generic { name := "U" })).freeNames := by decide +kernel
  exact hcaptured ((hfree "U").mpr (.inr ⟨"T", hT, _, rfl, hU⟩))

end Ty

end Ascribe
