import Ascribe.Proofs.Ty.FreeNames
import Ascribe.Ty.Solve

/-!
# What matching finds

Types for generic parameters are found by matching parameter types against arguments. Whatever the parameter types are,
and however many arguments there are, what is found is an argument, a part of one, `never`, a number type, or a nullable
form of these. So a property of types that passes to parts and is kept by these constructions (`Ty.Inherited`) holds of
everything that is found if it holds of the arguments.

## Key results

- `Bindings.solveGenerics_each`: an inherited property of the arguments holds of the solution
-/

namespace Ascribe

/-- A property of types that what matching finds has if the arguments have it. -/
structure Ty.Inherited (P : Ty → Prop) : Prop where
  part : ∀ {t part : Ty}, P t → part ∈ t.shape.visited → P part
  prim : ∀ p, P (.prim p)
  nullable : ∀ {t : Ty}, P t → P t.nullable

namespace Bindings

/-- A property holds of all types that are bound. -/
def Each (P : Ty → Prop) (bindings : Bindings) : Prop :=
  ∀ t ∈ bindings.values, P t

section Each

variable {P : Ty → Prop} {bindings : Bindings}

theorem Each.empty : Each P ∅ :=
  fun _ ht => absurd ht List.not_mem_nil

theorem Each.get? (h : bindings.Each P) {name : String} {t : Ty} (ht : bindings.get? name = some t) : P t :=
  h t (mem_values_of_get? ht)

theorem Each.insert (h : bindings.Each P) (name : String) {t : Ty} (ht : P t) : Each P (bindings.insert name t) := by
  intro u hu
  rcases Table.mem_values_insert hu with rfl | hold
  · exact ht
  · exact h u hold

theorem ofList_each {pairs : List (String × Ty)} (h : ∀ pair ∈ pairs, P pair.2) : Each P (Table.ofList pairs) := by
  have hfold : ∀ (pairs : List (String × Ty)) (b : Bindings), b.Each P → (∀ pair ∈ pairs, P pair.2) →
      Each P (pairs.foldl (fun (b : Bindings) e => b.insert e.1 e.2) b) := by
    intro pairs
    induction pairs with
    | nil => exact fun b hb _ => hb
    | cons pair rest ih =>
      intro b hb hpairs
      rw [List.forall_mem_cons] at hpairs
      exact ih _ (hb.insert pair.1 hpairs.1) hpairs.2
  exact hfold pairs ∅ .empty h

end Each

/-! ## Matching -/

variable {P : Ty → Prop} {solved : Bindings}

/-- `Bindings.accept` keeps an `Inherited` property: a parameter takes the type, keeps its own, or takes a type that is
made of them. -/
theorem Each.accept (hP : Ty.Inherited P) (h : solved.Each P) (name : String) {arg : Ty} (harg : P arg) :
    (solved.accept name arg).Each P := by
  unfold Bindings.accept
  split
  · exact h.insert name harg
  · next known hknown =>
    split
    · exact h
    split
    · exact h.insert name (hP.nullable harg)
    split
    · exact h.insert name (hP.nullable (h.get? hknown))
    split
    · split
      · exact h.insert name harg
      split
      · exact h
      split
      · exact h.insert name (hP.prim _)
      · exact h
    · exact h

/-- Matching against an argument that has a property binds only types that have it. -/
def Matching (P : Ty → Prop) (m : Matcher) : Prop :=
  ∀ {arg : Ty} {solved : Bindings}, P arg → solved.Each P → (m arg solved).Each P

theorem matchAll_each {matchers : List Matcher} (hmatchers : ∀ m ∈ matchers, Matching P m) {args : List Ty}
    (hargs : ∀ t ∈ args, P t) (h : solved.Each P) : (Ty.matchAll matchers args solved).Each P := by
  induction matchers generalizing args solved with
  | nil => exact h
  | cons m rest ih =>
    cases args with
    | nil => exact h
    | cons arg args =>
      rw [List.forall_mem_cons] at hmatchers hargs
      exact ih hmatchers.2 hargs.2 (hmatchers.1 hargs.1 h)

theorem matchFields_each {fields : List (Field Matcher)} (hfields : ∀ f ∈ fields, Matching P f.type)
    {body : StructBody Ty} (hbody : ∀ f ∈ body.fields, P f.type) (h : solved.Each P) :
    (Ty.matchFields fields body solved).Each P := by
  unfold Ty.matchFields
  induction fields generalizing solved with
  | nil => exact h
  | cons field rest ih =>
    rw [List.forall_mem_cons] at hfields
    rw [List.foldl_cons]
    refine ih hfields.2 ?_
    split
    · next found hfound => exact hfields.1 (hbody found (List.mem_of_find?_eq_some hfound)) h
    · exact h

/-- `solveStep` keeps a property if the matchers of the parts do: it hands out the argument itself, or parts of it. -/
theorem solveStep_each (hP : Ty.Inherited P) {names : List String} {parts : Shape Matcher}
    (hparts : ∀ m ∈ parts.parts, Matching P m) : Matching P (Ty.solveStep names parts) := by
  intro arg solved harg h
  have below {s : Shape Ty} (hs : arg.shape = s) : ∀ part ∈ s.visited, P part :=
    fun part hpart => hP.part harg (hs ▸ hpart)
  unfold Ty.solveStep
  split
  · exact h
  split
  · split
    · exact h.accept hP _ harg
    · exact h
  · next p a ha => exact hparts p (by simp [Shape.parts]) (below ha a (by simp [Shape.visited, Shape.parts])) h
  · next p a ha => exact hparts p (by simp [Shape.parts]) (below ha a (by simp [Shape.visited, Shape.parts])) h
  · exact h
  · next p _ _ => exact hparts p (by simp [Shape.parts]) harg h
  · next ps as ha => exact matchAll_each hparts (below ha) h
  · next p a ha =>
    split
    · exact matchAll_each hparts (below ha) h
    · exact h
  · next p c ha =>
    split
    · refine matchAll_each hparts (fun t ht => below ha t ?_) h
      exact List.mem_cons_of_mem _ (List.mem_append_left _ ht)
    · exact h
  · next p a ha =>
    refine matchFields_each (fun f hf => hparts _ ?_) (fun f hf => below ha _ ?_) h
    · exact List.mem_map.mpr ⟨f, hf, rfl⟩
    · exact List.mem_map.mpr ⟨f, hf, rfl⟩
  · next p a ha =>
    have hresult : p.result ∈ (Shape.fn p).parts := by simp [Shape.parts, Signature.parts]
    refine hparts _ hresult (below ha _ ?_) (matchAll_each (fun m hm => hparts m ?_) (fun t ht => below ha t ?_) h)
    · exact List.mem_append_right _ (List.mem_singleton_self _)
    · exact List.mem_append_left _ hm
    · exact List.mem_append_left _ ht
  · exact h

theorem solve_each (hP : Ty.Inherited P) (names : List String) (t : Ty) : Matching P (t.solve names) := by
  induction t using Ty.induction_on_parts with
  | step t ih =>
    intro arg solved harg h
    rw [Ty.solve, Ty.foldWith_eq]
    refine solveStep_each hP (fun m hm => ?_) harg h
    rw [Shape.parts_map] at hm
    obtain ⟨part, hpart, rfl⟩ := List.mem_map.mp hm
    exact ih part hpart

theorem inOrder_each (hP : Ty.Inherited P) (names : List String) (h : solved.Each P) :
    ∀ pair ∈ inOrder names solved, P pair.2 := by
  induction names generalizing solved with
  | nil => simp [inOrder]
  | cons name names ih =>
    refine List.forall_mem_cons.mpr ⟨?_, ih fun t ht => h t ?_⟩
    · cases hfound : solved.get? name with
      | none => exact hP.prim .never
      | some t => exact h.get? hfound
    · obtain ⟨entry, hentry, rfl⟩ := List.mem_map.mp ht
      exact List.mem_map.mpr ⟨entry, (List.mem_filter.mp hentry).1, rfl⟩

/-- `solveGenerics` binds types with every `Inherited` property that the arguments have. -/
theorem solveGenerics_each (hP : Ty.Inherited P) (names : List String) (params : List Ty) {args : List Ty}
    (h : ∀ t ∈ args, P t) : (solveGenerics names params args).Each P := by
  refine ofList_each (inOrder_each hP names (matchAll_each (fun m hm => ?_) h .empty))
  obtain ⟨param, -, rfl⟩ := List.mem_map.mp hm
  exact solve_each hP names param

end Bindings

end Ascribe
