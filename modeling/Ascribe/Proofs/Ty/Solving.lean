import Ascribe.Proofs.Assignability.Merging
import Ascribe.Proofs.Table
import Ascribe.Proofs.Ty.FreeNames
import Ascribe.Ty.Solve

/-!
# Solving undoes a substitution

A call of a generic function gives types to the generic parameters of the function by matching the types of its
parameters against the types of the arguments. If the arguments are instances of the parameter types, all under
one substitution, matching finds the substitution again (`solveGenerics_substitute`).

The matching carries the bindings found so far through all places of all parameter types. What it finds at a place
is told by the substitution alone: the type that is put in place of the parameter there, unless that is `never`,
which tells nothing (`Bindings.told`). So one step of the matching, and then the whole of it, is described by the
names it comes across (`Bindings.Learns`).

## Key results

- `Ty.Pattern.solve`: what matching a type against an instance of it learns
- `Ty.Pattern.erase_substitute_congr`: an instance depends on what is put in place of the names that occur
- `solveGenerics_substitute`: solving finds the substitution, and so the arguments
-/

namespace Ascribe

/-! ## Patterns -/

/-- Whether a layer is matched part by part: a primitive type, an array, a tuple, a named type, a struct with distinct
field names, or a function type without generic parameters of its own. -/
def Shape.isFrame {α : Type} : Shape α → Bool
  | .prim _ | .array _ | .tuple _ | .ref _ => true
  | .struct body => (body.fields.map (·.name)).Nodup
  | .fn s => s.generics.isEmpty
  | _ => false

/-- Types that can be matched against their instances, when the parameters of some names are to be solved. -/
inductive Ty.Pattern (names : List String) : Ty → Prop where
  /-- A parameter that is not to be solved has no bound, which an instance would replace. -/
  | generic {t : Ty} {g : Generic Ty} (shape : t.shape = .generic g) (bound : g.name ∈ names ∨ g.constraint = none) :
    Pattern names t
  | nullable {t base : Ty} (shape : t.shape = .nullable base) (built : base.isWrapped = true)
    (part : Pattern names base) : Pattern names t
  | frame {t : Ty} (shape : t.shape.isFrame = true) (parts : ∀ part ∈ t.shape.parts, Pattern names part) :
    Pattern names t

/-- Bindings give types to some names and no others, and none of the types is an error, `null` or nullable. -/
structure Bindings.Fills (s : Bindings) (names : List String) : Prop where
  names : ∀ name, s.contains name = names.contains name
  values : ∀ value ∈ s.values, value.isError = false ∧ value.isNull = false ∧ value.isNullable = false

namespace Ty

variable {names : List String} {t : Ty} {s : Bindings}

theorem map_substitute_of_isEmpty (h : s.isEmpty = true) (shape : Shape Ty) : shape.map (·.substitute s) = shape := by
  have hid : (fun part : Ty => part.substitute s) = id := funext fun part => substitute_of_isEmpty h
  rw [hid]
  cases shape <;> simp [Shape.map, Shape.mapUnder, Shape.mapFields, Shape.mapMethods, Signature.mapUnder]

/-- `substitute` goes through a frame to its parts, where nothing is hidden. -/
theorem shape_substitute_of_isFrame (h : t.shape.isFrame = true) :
    (t.substitute s).shape = t.shape.map (·.substitute s) := by
  cases hempty : s.isEmpty with
  | true => rw [substitute_of_isEmpty hempty, map_substitute_of_isEmpty hempty]
  | false =>
    have hpassed : t.shape.isPassedThrough = true := by
      cases hshape : t.shape <;> simp_all [Shape.isFrame, Shape.isPassedThrough]
    rw [substitute_eq_replaced hpassed hempty, replaced]
    cases hshape : t.shape with
    | fn f =>
      have hnames : f.genericNames = [] := by simp_all [Shape.isFrame, Signature.genericNames]
      simp [Shape.map, Shape.mapUnder, Signature.mapUnder, hnames]
    | cls _ | interface _ | coroutine _ => simp [hshape, Shape.isFrame] at h
    | _ => simp [Shape.map, Shape.mapUnder]

theorem mem_freeNames_generic {g : Generic Ty} (h : t.shape = .generic g) (name : String) :
    name ∈ t.freeNames ↔ name = g.name := by
  rw [freeNames, occurrences, occurrencesUnder_generic h]
  simp [Occurrence.isFree]

theorem freeNames_of_scopedParts (parts : List Ty) (hne : ∀ g, t.shape ≠ .generic g)
    (h : t.shape.scopedParts = parts.map ([], ·)) : t.freeNames = parts.flatMap freeNames := by
  unfold freeNames occurrences
  rw [occurrencesUnder_eq hne, h, List.flatMap_map, List.filter_flatMap, List.map_flatMap]
  rfl

theorem freeNames_nullable {base : Ty} (h : t.shape = .nullable base) : t.freeNames = base.freeNames := by
  rw [freeNames_of_scopedParts [base]]
  · simp
  · simp [h]
  · simp [h, Shape.scopedParts, Shape.mapUnder, Shape.visited, Shape.parts]

theorem freeNames_of_isFrame (h : t.shape.isFrame = true) : t.freeNames = t.shape.parts.flatMap freeNames := by
  apply freeNames_of_scopedParts t.shape.parts
  · intro g hg
    simp [hg, Shape.isFrame] at h
  · cases hshape : t.shape with
    | fn f =>
      have hgenerics : f.generics = [] := by simpa [hshape, Shape.isFrame] using h
      simp [Shape.scopedParts, Shape.mapUnder, Shape.visited, Shape.parts, Signature.mapUnder, Signature.visited,
        Signature.parts, Signature.paramTypes, Signature.genericNames, hgenerics]
    | prim _ | array _ | tuple _ | ref _ | struct _ =>
      simp [Shape.scopedParts, Shape.mapUnder, Shape.mapFields, Shape.visited, Shape.parts]
    | _ => simp [hshape, Shape.isFrame] at h

end Ty

/-! ## What matching learns -/

namespace Bindings

/-- What a place of a name tells: the type that is put there, unless it is `never`. -/
def told (s : Bindings) (name : String) : Option Ty :=
  (s.get? name).filter fun value => !value.isNever

/-- What is found so far is what a substitution says. -/
def Follows (solved s : Bindings) : Prop :=
  ∀ name value, solved.get? name = some value → s.get? name = some value

/-- Bindings grow by what places of some names tell. -/
def Learns (s : Bindings) (names : List String) (solved solved' : Bindings) : Prop :=
  ∀ name, solved'.get? name = if name ∈ names then (solved.get? name).or (s.told name) else solved.get? name

variable {s solved solved' solved'' : Bindings} {names names' : List String}

theorem told_of_get? {name : String} {value : Ty} (h : s.get? name = some value) :
    s.told name = if value.isNever then none else some value := by
  rw [told, h, Option.filter_some]
  cases value.isNever <;> rfl

theorem Learns.nil : s.Learns [] solved solved := by
  intro name
  simp

theorem Learns.append (h : s.Learns names solved solved') (h' : s.Learns names' solved' solved'') :
    s.Learns (names ++ names') solved solved'' := by
  intro name
  rw [h' name, h name]
  by_cases hmem : name ∈ names <;> by_cases hmem' : name ∈ names' <;> simp [hmem, hmem', Option.or_assoc]

theorem Learns.follows (h : s.Learns names solved solved') (hsolved : solved.Follows s) : solved'.Follows s := by
  intro name value hvalue
  rw [h name] at hvalue
  split at hvalue
  · rcases Option.or_eq_some_iff.mp hvalue with hknown | ⟨-, htold⟩
    · exact hsolved name value hknown
    · exact (Option.filter_eq_some_iff.mp htold).1
  · exact hsolved name value hvalue

/-- `accept` leaves a name as it is that is met again at the same type. -/
theorem Follows.accept (hsolved : solved.Follows s) {name : String} {value : Ty} (hvalue : s.get? name = some value)
    (hnever : value.isNever = false) : s.Learns [name] solved (solved.accept name value) := by
  have htold : s.told name = some value := by simp [told_of_get? hvalue, hnever]
  intro other
  unfold Bindings.accept
  cases hknown : solved.get? name with
  | none =>
    by_cases heq : other = name
    · subst heq
      simp [hknown, htold]
    · simp [heq]
  | some known =>
    obtain rfl : value = known := Option.some.inj (hvalue.symm.trans (hsolved name known hknown))
    simp only [Ty.beq_eq_same, Ty.same_refl, if_true]
    by_cases heq : other = name
    · subst heq
      simp [hknown]
    · simp [heq]

end Bindings

/-! ## Matching an instance -/

namespace Ty

variable {names : List String} {t : Ty} {s solved : Bindings}

theorem solve_eq (names : List String) (t arg : Ty) (solved : Bindings) :
    t.solve names arg solved = solveStep names (t.shape.map (solve names)) arg solved := by
  rw [solve, foldWith_eq]
  rfl

theorem matchAll_append {ms ms' : List Matcher} {args args' : List Ty} (h : ms.length = args.length)
    (solved : Bindings) :
    matchAll (ms ++ ms') (args ++ args') solved = matchAll ms' args' (matchAll ms args solved) := by
  induction ms generalizing args solved with
  | nil =>
    obtain rfl : args = [] := List.eq_nil_of_length_eq_zero h.symm
    simp [matchAll]
  | cons m ms ih =>
    cases args with
    | nil => simp at h
    | cons arg args =>
      simp only [List.cons_append, matchAll]
      exact ih (by simpa using h) _

/-- `matchFields` matches fields of distinct names against instances of themselves in order. -/
theorem matchFields_instance {body : StructBody Ty} (hnodup : (body.fields.map (·.name)).Nodup) (f : Ty → Matcher)
    (g : Ty → Ty) (solved : Bindings) :
    matchFields (Shape.mapFields f body.fields) { body with fields := Shape.mapFields g body.fields } solved =
      matchAll (body.fields.map fun x => f x.type) (body.fields.map fun x => g x.type) solved := by
  let arg : StructBody Ty := { body with fields := Shape.mapFields g body.fields }
  have hdistinct : (arg.fields.map (·.name)).Nodup := by
    simpa [arg, Shape.mapFields, Function.comp_def] using hnodup
  have find {x : Field Ty} (hx : x ∈ body.fields) : arg.field? x.name = some { x with type := g x.type } := by
    have hmem : { x with type := g x.type } ∈ arg.fields := List.mem_map.mpr ⟨x, hx, rfl⟩
    exact StructBody.field?_of_mem hmem hdistinct
  have walk (fields : List (Field Ty)) (hsub : fields ⊆ body.fields) (solved : Bindings) :
      matchFields (Shape.mapFields f fields) arg solved =
        matchAll (fields.map fun x => f x.type) (fields.map fun x => g x.type) solved := by
    induction fields generalizing solved with
    | nil => simp [matchFields, Shape.mapFields, matchAll]
    | cons x rest ih =>
      rw [List.cons_subset] at hsub
      have hrest := ih hsub.2 (f x.type (g x.type) solved)
      simp only [matchFields, Shape.mapFields, List.map_cons, List.foldl_cons, matchAll] at hrest ⊢
      rw [find hsub.1, ← hrest]
  exact walk body.fields (List.Subset.refl _) solved

/-- `solve` matches a frame against an instance of it part by part. -/
theorem solve_of_isFrame (h : t.shape.isFrame = true) (solved : Bindings) :
    t.solve names (t.substitute s) solved =
      matchAll (t.shape.parts.map (solve names)) (t.shape.parts.map (·.substitute s)) solved := by
  have hinstance := shape_substitute_of_isFrame (s := s) h
  rw [solve_eq]
  unfold solveStep isNever isError problem? isPrimitive primitive?
  rw [hinstance]
  cases hshape : t.shape with
  | prim p => cases p <;> simp [Shape.map, Shape.mapUnder, Shape.parts, matchAll]
  | array elem => simp [Shape.map, Shape.mapUnder, Shape.parts, matchAll]
  | tuple elems => simp [Shape.map, Shape.mapUnder, Shape.parts]
  | ref r => simp [Shape.map, Shape.mapUnder, Shape.parts]
  | struct body =>
    have hnodup : (body.fields.map (·.name)).Nodup := by simpa [hshape, Shape.isFrame] using h
    simp only [Shape.map, Shape.mapUnder, Shape.parts, List.map_map]
    exact matchFields_instance hnodup _ _ solved
  | fn f =>
    have hgenerics : f.generics = [] := by simpa [hshape, Shape.isFrame] using h
    have hparts : f.parts = f.paramTypes ++ [f.result] := by simp [Signature.parts, hgenerics]
    simp only [Shape.map, Shape.mapUnder, Shape.parts, hparts, List.map_append]
    rw [matchAll_append (by simp)]
    simp [Signature.mapUnder, Signature.paramTypes, matchAll, Function.comp_def]
  | _ => simp [hshape, Shape.isFrame] at h

/-- `matchAll` learns from instances of types what `solve` learns from each of them. -/
theorem matchAll_learns {ts : List Ty}
    (h : ∀ t ∈ ts, ∀ solved : Bindings, solved.Follows s →
      s.Learns t.freeNames solved (t.solve names (t.substitute s) solved))
    (hsolved : solved.Follows s) :
    s.Learns (ts.flatMap freeNames) solved (matchAll (ts.map (solve names)) (ts.map (·.substitute s)) solved) := by
  induction ts generalizing solved with
  | nil => exact .nil
  | cons t rest ih =>
    rw [List.forall_mem_cons] at h
    have hfirst := h.1 solved hsolved
    exact hfirst.append (ih h.2 (hfirst.follows hsolved))

/-- An instance of a type that `nullable` wraps is wrapped as well, unless `any` is put in its place. -/
theorem Pattern.isAny_of_isWrapped (hpattern : t.Pattern names) (hs : s.Fills names) (hbuilt : t.isWrapped = true)
    (h : (t.substitute s).isWrapped = false) : (t.substitute s).isAny = true := by
  cases hpattern with
  | generic hshape hbound =>
    rename_i g
    cases hempty : s.isEmpty with
    | true => simp [substitute_of_isEmpty hempty, hbuilt] at h
    | false =>
      have hinstance : t.substitute s = (s.get? g.name).getD (t.replaced s) := by rw [substitute_eq t hempty, hshape]
      cases hvalue : s.get? g.name with
      | some value =>
        have hkinds := hs.values value (Bindings.mem_values_of_get? hvalue)
        rw [hvalue, Option.getD_some] at hinstance
        rw [hinstance] at h ⊢
        simpa [isWrapped, hkinds] using h
      | none =>
        rw [hvalue, Option.getD_none] at hinstance
        simp [hinstance, replaced, hshape, Shape.mapUnder, isWrapped, isNullable, isNull, isAny, isPrimitive,
          primitive?, isError, problem?] at h
  | nullable hshape _ _ => simp [isWrapped, isNullable, hshape] at hbuilt
  | frame hshape _ =>
    have hinstance := shape_substitute_of_isFrame (s := s) hshape
    have hsame : (t.substitute s).isWrapped = t.isWrapped := by
      unfold isWrapped isNullable isNull isAny isPrimitive primitive? isError problem?
      rw [hinstance]
      cases t.shape <;> rfl
    rw [hsame, hbuilt] at h
    cases h

/-- `solve` matches a nullable pattern as it does its base. -/
theorem solve_of_nullable {base : Ty} (hshape : t.shape = .nullable base) (hpattern : base.Pattern names)
    (hbuilt : base.isWrapped = true) (hs : s.Fills names) (solved : Bindings) :
    t.solve names (t.substitute s) solved = base.solve names (base.substitute s) solved := by
  have wrapped (h : (t.substitute s).shape = .nullable (base.substitute s)) :
      t.solve names (t.substitute s) solved = base.solve names (base.substitute s) solved := by
    rw [solve_eq, hshape]
    simp [solveStep, h, isNever, isPrimitive, primitive?, isError, problem?, Shape.map, Shape.mapUnder]
  cases hempty : s.isEmpty with
  | true => exact wrapped (by rw [substitute_of_isEmpty hempty, substitute_of_isEmpty hempty, hshape])
  | false =>
    have hinstance : t.substitute s = (base.substitute s).nullable := by rw [substitute_eq t hempty, hshape]
    rw [nullable_eq] at hinstance
    split at hinstance
    · exact wrapped (by rw [hinstance]; rfl)
    · next hwrapped =>
      -- then `any` is put in place of the base, and it stands for the nullable type as well
      have hany := hpattern.isAny_of_isWrapped hs hbuilt (by simpa using hwrapped)
      have hprim : (base.substitute s).shape = .prim .any := by
        simpa [isAny, isPrimitive, primitive?_eq_some] using hany
      rw [hinstance, solve_eq _ t, hshape]
      simp [solveStep, hprim, isNever, isPrimitive, primitive?, isError, problem?, Shape.map, Shape.mapUnder]

/-- `solve` learns from an instance of a `Pattern` what the names that occur in it stand for. -/
theorem Pattern.solve (hpattern : t.Pattern names) (hs : s.Fills names) (hsolved : solved.Follows s) :
    s.Learns t.freeNames solved (t.solve names (t.substitute s) solved) := by
  induction hpattern generalizing solved with
  | @generic t g hshape hbound =>
    have hname (name : String) : name ∈ t.freeNames ↔ name ∈ [g.name] := by
      rw [mem_freeNames_generic hshape, List.mem_singleton]
    have hstep (arg : Ty) : t.solve names arg solved =
        if arg.isNever || arg.isError then solved
        else if names.contains g.name then solved.accept g.name arg else solved := by
      rw [solve_eq, hshape]
      rfl
    intro name
    simp only [hname]
    revert name
    change s.Learns [g.name] solved _
    cases hvalue : s.get? g.name with
    | none =>
      -- nothing is known about the parameter, and it is not to be solved
      have hnot : names.contains g.name = false := by rw [← hs.names, Table.contains, hvalue]; rfl
      rw [hstep, hnot]
      intro name
      by_cases heq : name = g.name
      · simp [heq, Bindings.told, hvalue]
      · simp [heq]
    | some value =>
      have hempty : s.isEmpty = false := by
        by_contra hempty
        rw [Bool.not_eq_false, Table.isEmpty_iff_get?] at hempty
        cases (hempty g.name).symm.trans hvalue
      have hinstance : t.substitute s = value := by rw [substitute_eq t hempty, hshape]; simp [hvalue]
      have hnames : names.contains g.name = true := by rw [← hs.names, Table.contains, hvalue]; rfl
      obtain ⟨herror, -, -⟩ := hs.values value (Bindings.mem_values_of_get? hvalue)
      rw [hstep, hinstance, herror, hnames]
      cases hnever : value.isNever with
      | false => exact hsolved.accept hvalue hnever
      | true =>
        intro name
        by_cases heq : name = g.name
        · simp [heq, Bindings.told_of_get? hvalue, hnever]
        · simp [heq]
  | nullable hshape hbuilt hpart ih =>
    rw [freeNames_nullable hshape, solve_of_nullable hshape hpart hbuilt hs]
    exact ih hsolved
  | frame hshape _ ih =>
    rw [freeNames_of_isFrame hshape, solve_of_isFrame hshape]
    exact matchAll_learns (fun part hpart solved hsolved => ih part hpart hsolved) hsolved

/-! ## Instances under other bindings -/

/-- `isEmpty` holds of both of two bindings with the same names, or of neither. -/
theorem isEmpty_congr {b : Bindings} (h : ∀ name, b.contains name = s.contains name) : b.isEmpty = s.isEmpty := by
  rw [Bool.eq_iff_iff, Table.isEmpty_iff_get?, Table.isEmpty_iff_get?]
  refine forall_congr' fun name => ?_
  have hname := h name
  rw [Table.contains, Table.contains] at hname
  rw [← Option.not_isSome_iff_eq_none, ← Option.not_isSome_iff_eq_none, hname]

/-- `substitute` in a `Pattern` depends on what is bound to the names that occur, up to `erase`. -/
theorem Pattern.erase_substitute_congr (hpattern : t.Pattern names) {b : Bindings}
    (hnames : ∀ name, b.contains name = s.contains name) (hs : s.Fills names)
    (h : ∀ name ∈ t.freeNames, (b.get? name).map erase = (s.get? name).map erase) :
    (t.substitute b).erase = (t.substitute s).erase := by
  cases hempty : s.isEmpty with
  | true =>
    rw [substitute_of_isEmpty hempty, substitute_of_isEmpty ((isEmpty_congr hnames).trans hempty)]
  | false =>
    have hempty' : b.isEmpty = false := (isEmpty_congr hnames).trans hempty
    induction hpattern with
    | @generic t g hshape hbound =>
      have hg := h g.name ((mem_freeNames_generic hshape g.name).mpr rfl)
      rw [substitute_eq t hempty, substitute_eq t hempty', hshape]
      simp only
      cases hvalue : s.get? g.name with
      | some value =>
        rw [hvalue] at hg
        obtain ⟨value', hvalue', heq⟩ := Option.map_eq_some_iff.mp hg
        simpa [hvalue'] using heq
      | none =>
        have hconstraint : g.constraint = none := by
          refine hbound.resolve_left fun hmem => ?_
          have hcontains := hs.names g.name
          simp [Table.contains, hvalue, hmem] at hcontains
        rw [hvalue, Option.map_none, Option.map_eq_none_iff] at hg
        simp [hg, replaced, hshape, Shape.mapUnder, hconstraint]
    | @nullable t base hshape _ _ ih =>
      rw [freeNames_nullable hshape] at h
      rw [substitute_eq t hempty, substitute_eq t hempty', hshape]
      simp only [erase_nullable, ih h]
    | @frame t hshape _ ih =>
      rw [freeNames_of_isFrame hshape] at h
      have hparts : t.shape.map (fun part => (part.substitute b).erase) =
          t.shape.map fun part => (part.substitute s).erase := by
        refine Shape.map_congr fun part hpart => ih part hpart fun name hname => h name ?_
        exact List.mem_flatMap.mpr ⟨part, hpart, hname⟩
      rw [erase_eq, erase_eq, shape_substitute_of_isFrame hshape, shape_substitute_of_isFrame hshape,
        Shape.erasedWith, Shape.erasedWith, Shape.map_map, Shape.map_map, hparts]

end Ty

/-! ## Solving -/

/-- `inOrder` lists distinct names in order, each with what was found for it. -/
theorem Bindings.inOrder_of_nodup {names : List String} (h : names.Nodup) (solved : Bindings) :
    inOrder names solved = names.map fun name => (name, (solved.get? name).getD .never) := by
  induction names generalizing solved with
  | nil => rfl
  | cons name rest ih =>
    rw [List.nodup_cons] at h
    rw [inOrder, List.map_cons, ih h.2]
    congr 1
    refine List.map_congr_left fun other hother => ?_
    have hne : (other == name) = false := by
      rw [beq_eq_false_iff_ne]
      rintro rfl
      exact h.1 hother
    rw [Table.get?_without, hne]
    rfl

theorem lookup_map_mk {f : String → Ty} {names : List String} {name : String} (h : name ∈ names) :
    (names.map fun n => (n, f n)).lookup name = some (f name) := by
  induction names with
  | nil => cases h
  | cons n rest ih =>
    rw [List.map_cons, List.lookup_cons]
    by_cases heq : name = n
    · simp [heq]
    · rw [beq_eq_false_iff_ne.mpr heq]
      exact ih ((List.mem_cons.mp h).resolve_left heq)

section Solution

variable {names : List String} (hdistinct : names.Nodup) (params args : List Ty)

include hdistinct

/-- `solveGenerics` lists distinct names in order, each with what `matchAll` has found for it. -/
theorem solveGenerics_of_nodup :
    solveGenerics names params args = ⟨names.map fun name =>
      (name, ((Ty.matchAll (params.map (Ty.solve names)) args ∅).get? name).getD .never)⟩ := by
  rw [solveGenerics, Bindings.inOrder_of_nodup hdistinct, Table.ofList_of_nodup]
  simpa [Function.comp_def] using hdistinct

theorem keys_solveGenerics : (solveGenerics names params args).keys = names := by
  rw [solveGenerics_of_nodup hdistinct]
  simp [Table.keys, Function.comp_def]

theorem get?_solveGenerics (name : String) :
    (solveGenerics names params args).get? name =
      if name ∈ names then some (((Ty.matchAll (params.map (Ty.solve names)) args ∅).get? name).getD .never)
      else none := by
  rw [solveGenerics_of_nodup hdistinct, Table.get?]
  split
  · next hname => exact lookup_map_mk hname
  · next hname =>
    rw [List.lookup_eq_none_iff]
    rintro ⟨other, t⟩ hmem
    obtain ⟨_, hother, hpair⟩ := List.mem_map.mp hmem
    obtain ⟨rfl, -⟩ := Prod.mk.inj hpair
    simpa using (ne_of_mem_of_not_mem hother hname).symm

end Solution

/-- A type is the same as `never` if it is one. -/
theorem Ty.never_same {t : Ty} (h : t.isNever = true) : Ty.never.same t = true := by
  have hprim : t.shape = .prim .never := by
    simpa [isNever, isPrimitive, primitive?_eq_some] using h
  rw [same_eq, hprim]
  rfl

/-- Solving undoes a substitution. If the arguments are the instances of patterns under one substitution of distinct
names, then the solution binds the names in order: those that occur in the patterns to what the substitution put in
their place, and the others to `never`. Under the solution the patterns become the arguments. -/
theorem solveGenerics_substitute {names : List String} (hdistinct : names.Nodup) {params : List Ty}
    (hparams : ∀ p ∈ params, p.Pattern names) {s : Bindings} (hs : s.Fills names) :
    let solution := solveGenerics names params (params.map (·.substitute s))
    solution.keys = names ∧
      (∀ name ∈ names, name ∈ params.flatMap Ty.freeNames →
        ∃ t u, solution.get? name = some t ∧ s.get? name = some u ∧ t.same u = true) ∧
      (∀ name ∈ names, name ∉ params.flatMap Ty.freeNames → solution.get? name = some .never) ∧
      ∀ p ∈ params, (p.substitute solution).same (p.substitute s) = true := by
  intro solution
  have hlearns : s.Learns (params.flatMap Ty.freeNames) ∅ _ :=
    Ty.matchAll_learns (fun p hp _ hsolved => (hparams p hp).solve hs hsolved) (by simp [Bindings.Follows])
  have hget := get?_solveGenerics hdistinct params (params.map (·.substitute s))
  have hoccurs {name : String} (hname : name ∈ names) (hmem : name ∈ params.flatMap Ty.freeNames) :
      ∃ t u, solution.get? name = some t ∧ s.get? name = some u ∧ t.same u = true := by
    obtain ⟨u, hu⟩ : ∃ u, s.get? name = some u := by
      simpa [Table.contains, Option.isSome_iff_exists, hname] using hs.names name
    refine ⟨_, u, (hget name).trans (if_pos hname), hu, ?_⟩
    rw [hlearns name, if_pos hmem, Table.get?_empty, Option.none_or, Bindings.told_of_get? hu]
    split
    · next hnever => exact Ty.never_same hnever
    · exact u.same_refl
  refine ⟨keys_solveGenerics hdistinct _ _, fun name => hoccurs, fun name hname hmem => ?_, fun p hp => ?_⟩
  · rw [hget, if_pos hname, hlearns name, if_neg hmem]
    rfl
  · have hnames (name : String) : solution.contains name = s.contains name := by
      rw [hs.names, Table.contains, hget]
      by_cases hname : name ∈ names <;> simp [hname]
    rw [Ty.same_iff_erase_eq]
    refine (hparams p hp).erase_substitute_congr hnames hs fun name hmem => ?_
    by_cases hname : name ∈ names
    · obtain ⟨t, u, ht, hu, hsame⟩ := hoccurs hname (List.mem_flatMap.mpr ⟨p, hp, hmem⟩)
      rw [ht, hu, Option.map_some, Option.map_some, (Ty.same_iff_erase_eq t u).mp hsame]
    · have hunbound : s.get? name = none := by simpa [Table.contains, hname] using hs.names name
      rw [hget, if_neg hname, hunbound]

/-- A generic parameter without a bound. -/
def Ty.parameter (name : String) : Ty :=
  of (.generic { name })

/-- The parameter types of `fn<T, U, V>(first: T?, both: (U, T[]), box: struct { f: fn(T) -> Box<U>, tag: W })`. -/
def boxing : List Ty :=
  [.nullable (.parameter "T"),
    .tuple [.parameter "U", .array (.parameter "T")],
    .struct [
      { name := "f"
        type := .function {
          params := [{ name := "x", type := .parameter "T" }], result := .reference 0 "Box" [.parameter "U"] } },
      { name := "tag", type := .parameter "W" }] false]

/-- With `any` for `T`, `never` for `U` and `string` for `V`, which does not occur, solving gives `any` to `T` and
`never` to the other two. -/
theorem boxing_solved :
    let names := ["T", "U", "V"]
    let s : Bindings := ⟨[("V", .string), ("U", .never), ("T", .any)]⟩
    let solution := solveGenerics names boxing (boxing.map (·.substitute s))
    names.Nodup ∧ (∀ p ∈ boxing, p.Pattern names) ∧ s.Fills names ∧ solution.keys = names ∧
      (∃ t, solution.get? "T" = some t ∧ t.same .any = true) ∧
      (∃ t, solution.get? "U" = some t ∧ t.same .never = true) ∧ solution.get? "V" = some .never ∧
      ∀ p ∈ boxing, (p.substitute solution).same (p.substitute s) = true := by
  intro names s solution
  have hdistinct : names.Nodup := by decide
  have parameter (name : String) : (Ty.parameter name).Pattern names := .generic rfl (.inr rfl)
  have hparams : ∀ p ∈ boxing, p.Pattern names := by
    have parts {parts : List Ty} (h : parts.Forall (Ty.Pattern names)) : ∀ part ∈ parts, part.Pattern names :=
      List.forall_iff_forall_mem.mp h
    have array : (Ty.array (.parameter "T")).Pattern names := .frame rfl (parts (parameter "T"))
    have box : (Ty.reference 0 "Box" [.parameter "U"]).Pattern names := .frame rfl (parts (parameter "U"))
    refine parts ⟨.nullable rfl rfl (parameter "T"), .frame rfl (parts ⟨parameter "U", array⟩), .frame (by decide) ?_⟩
    exact parts ⟨.frame rfl (parts ⟨parameter "T", box⟩), parameter "W"⟩
  have hs : s.Fills names := by
    refine ⟨fun name => ?_, by decide⟩
    simp only [s, names, Table.contains, Table.get?, List.lookup_cons, List.lookup_nil, List.contains_cons]
    grind
  obtain ⟨hkeys, hoccurs, hothers, hinstances⟩ := solveGenerics_substitute hdistinct hparams hs
  refine ⟨hdistinct, hparams, hs, hkeys, ?_, ?_, hothers "V" (by decide) (by decide +kernel), hinstances⟩
  · obtain ⟨t, u, ht, hu, hsame⟩ := hoccurs "T" (by decide) (by decide +kernel)
    cases hu
    exact ⟨t, ht, hsame⟩
  · obtain ⟨t, u, ht, hu, hsame⟩ := hoccurs "U" (by decide) (by decide +kernel)
    cases hu
    exact ⟨t, ht, hsame⟩

end Ascribe
