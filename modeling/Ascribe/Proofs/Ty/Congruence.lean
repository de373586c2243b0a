import Ascribe.Proofs.Ty.Canonical
import Ascribe.Proofs.Ty.Solving

/-!
# Operations on types look through back-references

Types that are equal without their back-references are treated alike: substituting in them, instantiating a signature,
simplifying them and solving generic parameters for them gives results that are equal without their back-references.

Each operation is compared with its run on erased types. Wherever it asks whether two types are the same, it gets the
answer that it gets for the erased ones.

## Key results

- `Ty.erase_substitute_congr`, `Signature.erase_instantiate_congr`: substitution and instantiation
- `Ty.erase_simplify_congr`: simplification
- `erase_solveGenerics_congr`: solving for generic parameters
-/

namespace Ascribe

/-! ## Bindings -/

namespace Bindings

/-- Bindings without back-references in the types they give. -/
def erase (bindings : Bindings) : Bindings :=
  ⟨bindings.entries.map fun entry => (entry.1, entry.2.erase)⟩

/-- The same names are bound, to types that are equal without their back-references. -/
def Alike (b b' : Bindings) : Prop :=
  ∀ name, (b.get? name).map Ty.erase = (b'.get? name).map Ty.erase

namespace Alike

variable {b b' : Bindings}

theorem refl (b : Bindings) : b.Alike b :=
  fun _ => rfl

theorem symm (h : b.Alike b') : b'.Alike b :=
  fun name => (h name).symm

theorem trans {b'' : Bindings} (h : b.Alike b') (h' : b'.Alike b'') : b.Alike b'' :=
  fun name => (h name).trans (h' name)

theorem contains (h : b.Alike b') (name : String) : b.contains name = b'.contains name := by
  have hname := congrArg Option.isSome (h name)
  rwa [Option.isSome_map, Option.isSome_map] at hname

theorem isEmpty (h : b.Alike b') : b.isEmpty = b'.isEmpty :=
  Ty.isEmpty_congr h.contains

theorem without (h : b.Alike b') (drop : String → Bool) : Alike (b.without drop) (b'.without drop) := by
  intro name
  rw [Table.get?_without, Table.get?_without]
  split
  · rfl
  · exact h name

theorem shadow (h : b.Alike b') (names : List String) : (b.shadow names).Alike (b'.shadow names) :=
  h.without names.contains

theorem insert (h : b.Alike b') (name : String) {t u : Ty} (ht : t.erase = u.erase) :
    Alike (b.insert name t) (b'.insert name u) := by
  intro other
  rw [Table.get?_insert, Table.get?_insert]
  split
  · rw [Option.map_some, Option.map_some, ht]
  · exact h other

theorem ite {test : Prop} [Decidable test] {x x' y y' : Bindings} (hx : x.Alike x') (hy : y.Alike y') :
    Alike (if test then x else y) (if test then x' else y') := by
  split
  · exact hx
  · exact hy

/-- `Bindings.Alike` bindings both have a type under a name, equal up to `erase`, or neither has. -/
theorem cases (h : b.Alike b') (name : String) :
    (b.get? name = none ∧ b'.get? name = none) ∨
      ∃ t u, b.get? name = some t ∧ b'.get? name = some u ∧ t.erase = u.erase := by
  have hname := h name
  cases ht : b.get? name with
  | none =>
    rw [ht, Option.map_none] at hname
    exact .inl ⟨rfl, Option.map_eq_none_iff.mp hname.symm⟩
  | some t =>
    rw [ht, Option.map_some] at hname
    obtain ⟨u, hu, heq⟩ := Option.map_eq_some_iff.mp hname.symm
    exact .inr ⟨t, u, rfl, hu, heq.symm⟩

end Alike

end Bindings

theorem Ty.map_erase_map_erase (ts : List Ty) : (ts.map erase).map erase = ts.map erase := by
  simp

theorem Method.map_erase_map_erase (methods : List (Method Ty)) :
    (methods.map erase).map erase = methods.map erase := by
  simp

/-- `erase` keeps the `size` of a type. -/
theorem Ty.size_erase (t : Ty) : t.erase.size = t.size := by
  have hparts (s : Shape Ty) : s.forgetOrigins.parts = s.parts := by
    cases s <;> simp [Shape.forgetOrigins, Shape.parts, List.flatMap_map, Function.comp_def]
  induction t using induction_on_parts with
  | step t ih =>
    have hsizes : t.shape.parts.map (size ∘ erase) = t.shape.parts.map size := List.map_congr_left ih
    rw [size_eq, size_eq t, erase_shape, Shape.erasedWith, hparts, Shape.parts_map, List.map_map, hsizes]

/-! ## Substitution -/

namespace Ty

variable {t u : Ty} {b b' : Bindings}

/-- `replaced` gives equal types up to `erase` if `substitute` does at the parts. -/
theorem erase_replaced_erase
    (h : ∀ own, ∀ part ∈ t.shape.parts,
      (part.substitute (b.shadow own)).erase = (part.erase.substitute (b'.shadow own)).erase) :
    (t.replaced b).erase = (t.erase.replaced b').erase := by
  rw [erase_replaced, erase_replaced, erase_shape, Shape.erasedWith, Shape.mapUnder_forgetOrigins,
    Shape.forgetOrigins_forgetOrigins, Shape.map, Shape.mapUnder_mapUnder, Shape.mapUnder_congr h]

theorem erase_substitute_erase (t : Ty) (hb : b.Alike b') :
    (t.substitute b).erase = (t.erase.substitute b').erase := by
  induction t using induction_on_parts generalizing b b' with
  | step t ih =>
    cases hempty : b.isEmpty with
    | true => rw [substitute_of_isEmpty hempty, substitute_of_isEmpty (hb.isEmpty ▸ hempty), erase_erase]
    | false =>
      have hparts : (t.replaced b).erase = (t.erase.replaced b').erase :=
        erase_replaced_erase fun own part hpart => ih part hpart (hb.shadow own)
      rw [substitute_eq t hempty, substitute_eq t.erase (hb.isEmpty ▸ hempty), erase_shape]
      cases hshape : t.shape with
      | generic g =>
        show ((b.get? g.name).getD (t.replaced b)).erase = ((b'.get? g.name).getD (t.erase.replaced b')).erase
        rcases hb.cases g.name with ⟨hnone, hnone'⟩ | ⟨bound, bound', hbound, hbound', heq⟩
        · rw [hnone, hnone']
          exact hparts
        · rw [hbound, hbound']
          exact heq
      | nullable base =>
        have hbase := ih base (by simp [hshape, Shape.parts]) hb
        show (base.substitute b).nullable.erase = (base.erase.substitute b').nullable.erase
        rw [erase_nullable, erase_nullable, hbase]
      | error e => exact t.erase_erase.symm
      | _ => exact hparts

/-- `substitute` gives equal types up to `erase` for types and bindings that are equal up to it. -/
theorem erase_substitute_congr (ht : t.erase = u.erase) (hb : b.Alike b') :
    (t.substitute b).erase = (u.substitute b').erase := by
  rw [erase_substitute_erase t hb, ht, ← erase_substitute_erase u (.refl b')]

end Ty

namespace Signature

variable {s s' : Signature Ty} {b b' : Bindings}

theorem text_erase (s : Signature Ty) : s.erase.text = s.text := by
  simp only [text, erase, mapUnder_mapUnder, Ty.phrase_erase]

theorem erase_substitute_erase (s : Signature Ty) (hb : b.Alike b') :
    (s.substitute b).erase = (s.erase.substitute b').erase := by
  simp only [substitute, erase, mapUnder_mapUnder]
  congr 1
  funext own t
  exact t.erase_substitute_erase (hb.shadow own)

theorem erase_instantiate_erase (s : Signature Ty) (hb : b.Alike b') :
    (s.instantiate b).erase = (s.erase.instantiate b').erase := by
  -- what is left of a signature is substituted as one without generic parameters of its own
  have hsubstitute := erase_substitute_erase { s with generics := [] } hb
  simp only [erase, mapUnder, substitute, instantiate, genericNames, mk.injEq] at hsubstitute ⊢
  obtain ⟨hparams, hresult, -, -⟩ := hsubstitute
  refine ⟨hparams, hresult, ?_, trivial⟩
  rw [List.filter_map, List.map_map]
  simp only [Function.comp_def, Option.map_map, Ty.erase_erase, hb.contains]

/-- `Signature.instantiate` gives equal signatures up to `erase`. -/
theorem erase_instantiate_congr (hs : s.erase = s'.erase) (hb : b.Alike b') :
    (s.instantiate b).erase = (s'.instantiate b').erase := by
  rw [erase_instantiate_erase s hb, hs, ← erase_instantiate_erase s' (.refl b')]

end Signature

/-! ## Simplification -/

namespace Ty

theorem contains_map_erase (kept : List Ty) (t : Ty) : (kept.map erase).contains t.erase = kept.contains t := by
  simp only [List.contains_eq_any_beq, List.any_map, Function.comp_def, beq_eq_same, same_erase_erase]

theorem map_erase_distinct (members : List Ty) : (distinct members).map erase = distinct (members.map erase) := by
  have hfold : ∀ rest kept : List Ty,
      (rest.foldl (fun kept t => if kept.contains t then kept else kept ++ [t]) kept).map erase =
        (rest.map erase).foldl (fun kept t => if kept.contains t then kept else kept ++ [t]) (kept.map erase) := by
    intro rest
    induction rest with
    | nil => exact fun kept => rfl
    | cons t rest ih =>
      intro kept
      rw [List.foldl_cons, List.map_cons, List.foldl_cons, ih, contains_map_erase]
      split <;> simp
  exact hfold members []

theorem map_erase_unionMembers (t : Ty) : t.unionMembers.map erase = t.erase.unionMembers := by
  simp only [unionMembers, erase_shape]
  cases t.shape <;> rfl

theorem map_erase_joinMembers (t : Ty) : t.joinMembers.map erase = t.erase.joinMembers := by
  simp only [joinMembers, erase_shape]
  cases t.shape <;> rfl

theorem erase_collapse {wrap : List Ty → Shape Ty} {origin : Option NodeId} (members : List Ty)
    (hwrap : ∀ members, (Ty.mk (wrap members) origin).erase = of (wrap (members.map erase))) :
    (collapse wrap origin members).erase = collapse wrap none (members.map erase) := by
  match members with
  | [] => exact erase_eq never
  | [member] => rfl
  | _ :: _ :: _ => exact hwrap _

/-- `collapse` gives equal types up to `erase` for types that are equal up to it. -/
theorem erase_collapse_congr {wrap : List Ty → Shape Ty} {splice : Ty → List Ty} {origin origin' : Option NodeId}
    (hwrap : ∀ members origin, (Ty.mk (wrap members) origin).erase = of (wrap (members.map erase)))
    (hsplice : ∀ t, (splice t).map erase = splice t.erase) {types types' : List Ty}
    (h : types.map erase = types'.map erase) :
    (collapse wrap origin (distinct (types.flatMap splice))).erase =
      (collapse wrap origin' (distinct (types'.flatMap splice))).erase := by
  have hspliced (types : List Ty) : (types.flatMap splice).map erase = (types.map erase).flatMap splice := by
    rw [List.map_flatMap, List.flatMap_map]
    simp only [hsplice]
  rw [erase_collapse _ fun members => hwrap members origin, erase_collapse _ fun members => hwrap members origin',
    map_erase_distinct, map_erase_distinct, hspliced, hspliced, h]

theorem erase_simplify_erase (t : Ty) : t.simplify.erase = t.erase.simplify.erase := by
  induction t using induction_on_parts with
  | step t ih =>
    have hmembers {members : List Ty} (h : ∀ m ∈ members, m.simplify.erase = m.erase.simplify.erase) :
        (members.map simplify).map erase = ((members.map erase).map simplify).map erase := by
      simpa using h
    rw [simplify_eq t, simplify_eq t.erase, erase_shape]
    cases hshape : t.shape with
    | union members =>
      rw [hshape] at ih
      exact erase_collapse_congr (fun _ _ => erase_eq _) map_erase_unionMembers (hmembers ih)
    | join members =>
      rw [hshape] at ih
      exact erase_collapse_congr (fun _ _ => erase_eq _) map_erase_joinMembers (hmembers ih)
    | nullable base =>
      show base.simplify.nullable.erase = base.erase.simplify.nullable.erase
      rw [erase_nullable, erase_nullable, ih base (by simp [hshape, Shape.parts])]
    | array elem =>
      have helem := ih elem (by simp [hshape, Shape.parts])
      show (Ty.mk (.array elem.simplify) t.origin).erase = (Ty.mk (.array elem.erase.simplify) t.erase.origin).erase
      rw [erase_eq, erase_eq]
      simp only [Shape.erasedWith, Shape.map, Shape.mapUnder, Shape.forgetOrigins, helem]
    | _ => exact t.erase_erase.symm

/-- `simplify` gives equal types up to `erase`. -/
theorem erase_simplify_congr {t u : Ty} (h : t.erase = u.erase) : t.simplify.erase = u.simplify.erase := by
  rw [erase_simplify_erase, h, ← erase_simplify_erase]

end Ty

/-! ## Solving -/

theorem Bindings.Alike.accept {solved solved' : Bindings} (h : solved.Alike solved') (name : String) (arg : Ty) :
    Alike (solved.accept name arg) (solved'.accept name arg.erase) := by
  have harg : arg.erase = arg.erase.erase := arg.erase_erase.symm
  unfold Bindings.accept
  rcases h.cases name with ⟨hnone, hnone'⟩ | ⟨known, known', hknown, hknown', heq⟩
  · rw [hnone, hnone']
    exact h.insert name harg
  · have hsame : (known == arg) = (known' == arg.erase) := by
      rw [Ty.beq_eq_same, Ty.beq_eq_same, Bool.eq_iff_iff, Ty.same_iff_erase_eq, Ty.same_iff_erase_eq, heq, ← harg]
    have hprimitive : known.primitive? = known'.primitive? := by
      rw [← Ty.primitive?_erase, heq, Ty.primitive?_erase]
    have hnullable : arg.nullable.erase = arg.erase.nullable.erase := by
      rw [Ty.erase_nullable, Ty.erase_nullable, ← harg]
    have hnullable' : known.nullable.erase = known'.nullable.erase := by
      rw [Ty.erase_nullable, Ty.erase_nullable, heq]
    rw [hknown, hknown']
    simp only [← hsame, Ty.isNull, Ty.isPrimitive, Ty.primitive?_erase, ← hprimitive]
    refine ite h (ite (h.insert name hnullable) (ite (h.insert name hnullable') ?_))
    cases known.primitive? with
    | none => exact h
    | some p =>
      cases arg.primitive? with
      | none => exact h
      | some q =>
        refine ite (h.insert name harg) (ite h ?_)
        cases p.widen q with
        | none => exact h
        | some r => exact h.insert name rfl

namespace Ty

variable {names : List String} {solved solved' : Bindings}

/-- A type is matched alike against an argument and, both erased, against the erased argument. -/
def SolvesAlike (names : List String) (t : Ty) : Prop :=
  ∀ (arg : Ty) {solved solved' : Bindings}, solved.Alike solved' →
    (t.solve names arg solved).Alike (t.erase.solve names arg.erase solved')

theorem matchAll_alike {ts : List Ty} (h : ∀ t ∈ ts, t.SolvesAlike names) (args : List Ty)
    (hsolved : solved.Alike solved') :
    (matchAll (ts.map (solve names)) args solved).Alike
      (matchAll ((ts.map erase).map (solve names)) (args.map erase) solved') := by
  induction ts generalizing args solved solved' with
  | nil =>
    simp only [List.map_nil, matchAll]
    exact hsolved
  | cons t ts ih =>
    rw [List.forall_mem_cons] at h
    cases args with
    | nil => exact hsolved
    | cons arg args => exact ih h.2 args (h.1 arg hsolved)

theorem matchFields_cons (field : Field Matcher) (rest : List (Field Matcher)) (body : StructBody Ty)
    (solved : Bindings) :
    matchFields (field :: rest) body solved =
      matchFields rest body ((body.field? field.name).elim solved fun found => field.type found.type solved) := by
  rw [matchFields, List.foldl_cons]
  cases body.field? field.name <;> rfl

theorem matchFields_alike {fields : List (Field Ty)} (h : ∀ f ∈ fields, f.type.SolvesAlike names)
    (body : StructBody Ty) (hsolved : solved.Alike solved') :
    (matchFields (Shape.mapFields (solve names) fields) body solved).Alike
      (matchFields (Shape.mapFields (solve names) (fields.map Field.erase))
        { body with fields := body.fields.map Field.erase } solved') := by
  induction fields generalizing solved solved' with
  | nil => exact hsolved
  | cons field rest ih =>
    rw [List.forall_mem_cons] at h
    simp only [Shape.mapFields, List.map_cons, matchFields_cons, StructBody.field?_erase]
    apply ih h.2
    show Bindings.Alike _ (((body.field? field.name).map Field.erase).elim _ _)
    cases body.field? field.name with
    | none => exact hsolved
    | some found => exact h.1 found.type hsolved

theorem solve_erase (names : List String) (t : Ty) : t.SolvesAlike names := by
  induction t using induction_on_parts with
  | step t ih =>
    intro arg solved solved' hsolved
    rw [solve_eq, solve_eq, erase_shape]
    unfold solveStep
    rw [isNever_erase, isError_erase, erase_shape]
    split
    · exact hsolved
    cases ht : t.shape with
    | generic g =>
      show Bindings.Alike (if names.contains g.name then _ else _) (if names.contains g.name then _ else _)
      exact .ite (hsolved.accept g.name arg) hsolved
    | array p =>
      cases ha : arg.shape with
      | array a => exact ih p (by simp [ht, Shape.parts]) a hsolved
      | _ => exact hsolved
    | nullable p =>
      have hp := ih p (by simp [ht, Shape.parts])
      cases ha : arg.shape with
      | nullable a => exact hp a hsolved
      | prim q =>
        cases q with
        | null => exact hsolved
        | _ => exact hp arg hsolved
      | _ => exact hp arg hsolved
    | tuple ps =>
      rw [ht] at ih
      cases ha : arg.shape with
      | tuple as => exact matchAll_alike ih as hsolved
      | _ => exact hsolved
    | ref p =>
      rw [ht] at ih
      cases ha : arg.shape with
      | ref a => exact .ite (matchAll_alike ih a.args hsolved) hsolved
      | constructed c => exact .ite (matchAll_alike ih c.args hsolved) hsolved
      | _ => exact hsolved
    | struct p =>
      have hfields : ∀ f ∈ p.fields, f.type.SolvesAlike names := by
        intro f hf
        exact ih f.type (by simpa [ht, Shape.parts] using ⟨f, hf, rfl⟩)
      cases ha : arg.shape with
      | struct a =>
        rw [Shape.erasedWith_struct, Shape.erasedWith_struct]
        exact matchFields_alike hfields a hsolved
      | _ => exact hsolved
    | fn p =>
      have hresult := ih p.result (by simp [ht, Shape.parts, Signature.parts])
      have hparams : ∀ x ∈ p.paramTypes, x.SolvesAlike names := by
        intro x hx
        exact ih x (by simp [ht, Shape.parts, Signature.parts, hx])
      cases ha : arg.shape with
      | fn a =>
        have hmatch := hresult a.result (matchAll_alike hparams a.paramTypes hsolved)
        rw [Shape.erasedWith_fn, Shape.erasedWith_fn]
        simp only [Signature.paramTypes, List.map_map] at hmatch
        simp only [Shape.map, Shape.mapUnder, Signature.erase, Signature.mapUnder, Signature.paramTypes, List.map_map]
        exact hmatch
      | _ => exact hsolved
    | _ => exact hsolved

end Ty

/-- `Bindings.inOrder` gives equal entries up to `Ty.erase` for bindings that are `Bindings.Alike`. -/
theorem Bindings.Alike.inOrder {solved solved' : Bindings} (h : solved.Alike solved') (names : List String) :
    (Bindings.inOrder names solved).map (fun entry => (entry.1, entry.2.erase)) =
      (Bindings.inOrder names solved').map fun entry => (entry.1, entry.2.erase) := by
  induction names generalizing solved solved' with
  | nil => rfl
  | cons name names ih =>
    have hname : ((solved.get? name).getD .never).erase = ((solved'.get? name).getD .never).erase := by
      rcases h.cases name with ⟨hnone, hnone'⟩ | ⟨t, u, ht, hu, heq⟩
      · rw [hnone, hnone']
      · rw [ht, hu]
        exact heq
    simp only [Bindings.inOrder, List.map_cons, hname, ih (h.without _)]

theorem Bindings.erase_insert (bindings : Bindings) (name : String) (t : Ty) :
    Bindings.erase (bindings.insert name t) = bindings.erase.insert name t.erase := by
  obtain ⟨entries⟩ := bindings
  simp only [Bindings.erase, Table.insert, Table.mk.injEq]
  induction entries with
  | nil => rfl
  | cons entry rest ih =>
    by_cases h : name == entry.1
    · simp [Table.insertEntry, h]
    · simp [Table.insertEntry, h, ih]

theorem Bindings.erase_ofList (pairs : List (String × Ty)) :
    Bindings.erase (Table.ofList pairs) = Table.ofList (pairs.map fun entry => (entry.1, entry.2.erase)) := by
  have hfold : ∀ bindings : Bindings,
      Bindings.erase (pairs.foldl (fun (table : Bindings) entry => table.insert entry.1 entry.2) bindings) =
        (pairs.map fun entry => (entry.1, entry.2.erase)).foldl
          (fun (table : Bindings) entry => table.insert entry.1 entry.2) bindings.erase := by
    induction pairs with
    | nil => exact fun _ => rfl
    | cons entry rest ih =>
      intro bindings
      rw [List.foldl_cons, List.map_cons, List.foldl_cons, ih, erase_insert]
  exact hfold ∅

/-- `solveGenerics` gives equal bindings up to `Bindings.erase`. -/
theorem erase_solveGenerics_congr (names : List String) {params params' args args' : List Ty}
    (hparams : params.map Ty.erase = params'.map Ty.erase) (hargs : args.map Ty.erase = args'.map Ty.erase) :
    Bindings.erase (solveGenerics names params args) = Bindings.erase (solveGenerics names params' args') := by
  have hmatch (params args : List Ty) :
      (Ty.matchAll (params.map (Ty.solve names)) args ∅).Alike
        (Ty.matchAll ((params.map Ty.erase).map (Ty.solve names)) (args.map Ty.erase) ∅) :=
    Ty.matchAll_alike (fun t _ => t.solve_erase names) args (.refl ∅)
  have halike := (hmatch params args).trans (hparams ▸ hargs ▸ (hmatch params' args').symm)
  rw [solveGenerics, solveGenerics, Bindings.erase_ofList, Bindings.erase_ofList, halike.inOrder]

end Ascribe
