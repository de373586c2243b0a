import Ascribe.Proofs.Ty.Erasure

/-!
# The parts of a type

Two ways to speak about all parts of a type. `Ty.everywhere` asks a question of a type and of everything
it is made of, at any depth. `Shape.mapUnder` rewrites the parts of one layer; two such passes are one
(`Shape.mapUnder_mapUnder`), because a pass leaves the generic parameters of a signature in place, and a
pass only depends on what it does at the parts (`Shape.mapUnder_congr`).

## Key results

- `Ty.everywhere_iff`: a question holds everywhere in a type when it holds of the type and everywhere in
  its parts
- `Shape.mapUnder_mapUnder`, `Shape.mapUnder_congr`: the laws of a pass over the parts
-/

namespace Ascribe

/-! ## Questions asked everywhere -/

namespace Ty

/-- Whether a test holds of a type and of everything it is made of, at any depth. -/
def everywhere (test : Ty → Bool) (t : Ty) : Bool :=
  t.fold fun t parts => test t && parts.parts.all id

theorem everywhere_eq (test : Ty → Bool) (t : Ty) :
    t.everywhere test = (test t && t.shape.parts.all (everywhere test)) := by
  rw [everywhere, fold_eq, Shape.parts_map, List.all_map]
  rfl

theorem everywhere_iff {test : Ty → Bool} {t : Ty} :
    t.everywhere test = true ↔ test t = true ∧ ∀ part ∈ t.shape.parts, part.everywhere test = true := by
  rw [everywhere_eq, Bool.and_eq_true, List.all_eq_true]

/-- `everywhere` holds of a weaker test as well. -/
theorem everywhere_mono {strong weak : Ty → Bool} (h : ∀ t, strong t = true → weak t = true) {t : Ty}
    (ht : t.everywhere strong = true) : t.everywhere weak = true := by
  induction t using induction_on_parts with
  | step t ih =>
    rw [everywhere_iff] at ht ⊢
    exact ⟨h t ht.1, fun part hpart => ih part hpart (ht.2 part hpart)⟩

/-! ## Nullable types as they are built -/

/-- Whether `nullable` wraps a type: it is not nullable already, `null`, `any` or an error. -/
def isWrapped (base : Ty) : Bool :=
  !(base.isNullable || base.isNull || base.isAny || base.isError)

/-- Whether a nullable layer stands over a type that `nullable` wraps. -/
def isBuilt (t : Ty) : Bool :=
  match t.shape with
  | .nullable base => base.isWrapped
  | _ => true

/-- Whether every nullable type in a type, at any depth, is one that `nullable` builds. -/
def isNormal (t : Ty) : Bool :=
  t.everywhere isBuilt

theorem nullable_eq (base : Ty) :
    base.nullable = if base.isWrapped then of (.nullable base) else base := by
  obtain ⟨shape, origin⟩ := base
  cases shape with
  | prim p => cases p <;> rfl
  | _ => rfl

end Ty

/-! ## Passes over the parts -/

variable {α β γ : Type}

theorem Signature.mapUnder_mapUnder (f : List String → α → β) (g : List String → β → γ)
    (s : Signature α) :
    (s.mapUnder f).mapUnder g = s.mapUnder fun own part => g own (f own part) := by
  have names : (s.mapUnder f).genericNames = s.genericNames := by
    simp [genericNames, mapUnder]
  rw [mapUnder, names]
  simp [mapUnder, Function.comp_def]

namespace Shape

theorem mapMethods_mapMethods (f : List String → α → β) (g : List String → β → γ)
    (methods : List (Method α)) :
    mapMethods g (mapMethods f methods) = mapMethods (fun own part => g own (f own part)) methods := by
  simp [mapMethods, Signature.mapUnder_mapUnder]

/-- Two passes of `mapUnder` are one: the generic parameters of signatures stay where they are. -/
theorem mapUnder_mapUnder (f : List String → α → β) (g : List String → β → γ) (s : Shape α) :
    (s.mapUnder f).mapUnder g = s.mapUnder fun own part => g own (f own part) := by
  cases s <;>
    simp [mapUnder, mapFields, mapMethods_mapMethods, Signature.mapUnder_mapUnder, Function.comp_def]

/-- `mapUnder` only depends on what the function does at `parts`. -/
theorem mapUnder_congr {f g : List String → α → β} {s : Shape α}
    (h : ∀ own, ∀ part ∈ s.parts, f own part = g own part) : s.mapUnder f = s.mapUnder g := by
  -- first pair every part with what is to be done to it, whatever is bound around it, and then do it
  have split (f : List String → α → β) :
      s.mapUnder f = (s.map fun part own => f own part).mapUnder fun own todo => todo own := by
    rw [map, mapUnder_mapUnder]
  have todo : (s.map fun part own => f own part) = s.map fun part own => g own part :=
    map_congr fun part hpart => funext fun own => h own part hpart
  rw [split f, split g, todo]

end Shape

end Ascribe
