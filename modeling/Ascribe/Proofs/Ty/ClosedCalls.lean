import Ascribe.Proofs.Ty.Matching
import Ascribe.Proofs.Ty.Solving

/-!
# Calls close their callee

A call of a generic function gives a type to every generic parameter of the function. The types are found by matching,
and matching may go wrong in many ways: an argument is missing or does not fit, two arguments disagree, or the parameter
types give no place to match. Whatever happens, every parameter gets some type, and if no generic parameter occurs in
the arguments then none occurs in what is found (`Ty.inherited_ground`). So the parameters of the function are gone from
the instantiated signature, and all other names are left as they were. A nested signature that declares a parameter of
the same name keeps its own.

## Key results

- `Ty.mem_freeNames_substitute_of_ground`: types without parameters take the bound names away and add none
- `Signature.instantiate_solved`: what is free in a signature after a call
-/

namespace Ascribe

namespace Ty

variable {t : Ty}

/-! ## Types in which no parameter occurs -/

/-- Having no `occurrences` is `Inherited`: parts have none, and the types that are made of such types have none. -/
theorem inherited_ground : Inherited (·.occurrences = []) where
  part := by
    intro t part hground hpart
    have hne : ∀ g, t.shape ≠ .generic g := by
      intro g hg
      simp [hg, Shape.visited] at hpart
    have hscoped : t.shape.scopedParts.map Prod.snd = t.shape.visited := by
      rw [Shape.scopedParts, ← Shape.visited_map, Shape.map, Shape.mapUnder_mapUnder]
      change (t.shape.map id).visited = _
      rw [Shape.visited_map, List.map_id]
    obtain ⟨⟨own, _⟩, hmem, rfl⟩ := List.mem_map.mp (hscoped ▸ hpart)
    rw [occurrences, occurrencesUnder_eq hne, List.flatMap_eq_nil_iff] at hground
    simpa [occurrencesUnder_eq_map] using hground _ hmem
  prim := fun _ => rfl
  nullable := fun {t} hground => (occurrencesUnder_nullable t []).trans hground

/-- `substitute` takes the bound names away from `freeNames` and adds none, if the types that it puts in have no
`occurrences`. -/
theorem mem_freeNames_substitute_of_ground {bindings : Bindings} (h : bindings.Each (·.occurrences = []))
    (name : String) : name ∈ (t.substitute bindings).freeNames ↔ name ∈ t.freeNames ∧ bindings.get? name = none := by
  rw [mem_freeNames_substitute, or_iff_left]
  rintro ⟨o, -, -, value, hvalue, hname, -⟩
  simp [freeNames, h.get? hvalue] at hname

end Ty

/-! ## Signatures -/

namespace Signature

/-- The names that occur free in the parameters and the result of a signature. Its own generic parameters count. -/
def openNames (s : Signature Ty) : List String :=
  s.visited.flatMap Ty.freeNames

theorem visited_instantiate (s : Signature Ty) (bindings : Bindings) :
    (s.instantiate bindings).visited = s.visited.map (·.substitute bindings) := by
  simp [instantiate, substitute, visited, paramTypes, mapUnder, genericNames]

/-- A call closes its callee, if its arguments have no `occurrences`. Instantiating the signature with what
`solveGenerics` finds leaves no generic parameter to be given, and `freeNames` of the parameters and of the result lose
the generic parameters of the signature and nothing else. -/
theorem instantiate_solved (s : Signature Ty) (hdistinct : s.genericNames.Nodup) (args : List Ty)
    (hargs : ∀ t ∈ args, t.occurrences = []) :
    let call := s.instantiate (solveGenerics s.genericNames s.paramTypes args)
    call.generics = [] ∧ ∀ name, name ∈ call.openNames ↔ name ∈ s.openNames ∧ name ∉ s.genericNames := by
  intro call
  have hget := get?_solveGenerics hdistinct s.paramTypes args
  have hground := Bindings.solveGenerics_each Ty.inherited_ground s.genericNames s.paramTypes hargs
  constructor
  · -- every parameter is bound, be it to `never`
    refine List.filter_eq_nil_iff.mpr fun g hg => ?_
    have hname : g.name ∈ s.genericNames := List.mem_map.mpr ⟨g, hg, rfl⟩
    simp [Table.contains, hget, hname]
  · intro name
    have hbound : (solveGenerics s.genericNames s.paramTypes args).get? name = none ↔ name ∉ s.genericNames := by
      rw [hget]
      split <;> simp_all
    simp only [call, openNames, visited_instantiate, List.flatMap_map, List.mem_flatMap,
      Ty.mem_freeNames_substitute_of_ground hground, hbound]
    constructor
    · rintro ⟨t, ht, hname, hnew⟩
      exact ⟨⟨t, ht, hname⟩, hnew⟩
    · rintro ⟨⟨t, ht, hname⟩, hnew⟩
      exact ⟨t, ht, hname, hnew⟩

/-- `fn<T, U, V>(first: T, second: T, each: fn<T>(T) -> U, box: Box<V>) -> (T?, fn<V>(V, T) -> W, U)`. -/
def pairing : Signature Ty where
  params := [
    { name := "first", type := .parameter "T" },
    { name := "second", type := .parameter "T" },
    { name := "each"
      type := .function {
        params := [{ name := "x", type := .parameter "T" }], result := .parameter "U",
        generics := [{ name := "T" }] } },
    { name := "box", type := .reference 0 "Box" [.parameter "V"] }]
  result := .tuple [
    .nullable (.parameter "T"),
    .function {
      params := [{ name := "x", type := .parameter "V" }, { name := "y", type := .parameter "T" }]
      result := .parameter "W"
      generics := [{ name := "V" }] },
    .parameter "U"]
  generics := [{ name := "T" }, { name := "U" }, { name := "V" }]

/-- A call with too few arguments, of which two disagree and the third does not fit, leaves only `W` free. -/
theorem pairing_closed :
    let args : List Ty := [.null, .array .string, .prim .u8]
    let call := pairing.instantiate (solveGenerics pairing.genericNames pairing.paramTypes args)
    pairing.genericNames.Nodup ∧ (∀ t ∈ args, t.occurrences = []) ∧
      call.generics = [] ∧ ∀ name, name ∈ call.openNames ↔ name = "W" := by
  intro args call
  have hdistinct : pairing.genericNames.Nodup := by decide
  have hargs : ∀ t ∈ args, t.occurrences = [] := by decide +kernel
  obtain ⟨hgenerics, hnames⟩ := instantiate_solved pairing hdistinct args hargs
  refine ⟨hdistinct, hargs, hgenerics, fun name => ?_⟩
  have hopen : pairing.openNames = ["T", "T", "U", "V", "T", "T", "W", "U"] := by decide +kernel
  have hown : pairing.genericNames = ["T", "U", "V"] := rfl
  rw [hnames, hopen, hown]
  constructor
  · rintro ⟨hname, hother⟩
    simp only [List.mem_cons, List.not_mem_nil, or_false, not_or] at hname hother
    tauto
  · rintro rfl
    decide

end Signature

end Ascribe
