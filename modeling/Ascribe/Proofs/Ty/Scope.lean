import Ascribe.Proofs.Ty.Matching
import Ascribe.Ty.Canonical
import Ascribe.Ty.Prototype

/-!
# What types mention

Types point at nodes: a named type at its declaration, a constructor at that of its variant, a method at the node it
was written at, and any type at the node it was derived from. They may also hold the placeholder of a type that was
still being computed, and nullable layers that `Ty.nullable` would not put there. A `Scope` says which nodes may be
pointed at, whether the placeholder may be held, and whether there may be such layers, and `Ty.InScope scope t` that
this is so at any depth. Everything that builds types from types keeps them in scope.

Three scopes matter: the positions in an arena (`Ty.Within`), no placeholder (`Scope.settled`), and nullable layers as
`Ty.nullable` builds them only (`Scope.normal`).

## Key results

- `Ty.inScope_iff`: a type is in scope if its layer is and its parts are
- `Ty.InScope.substitute`, `Ty.InScope.simplify`: rewriting a type keeps it in scope
- `Bindings.solveGenerics_inScope`: what is found for generic parameters comes from the arguments
-/

namespace Ascribe

variable {α β : Type}

namespace Shape

/-- The nodes that one layer of a type points at. Those that fields, attributes and cases come from are left out: no
type is derived from them. -/
def nodes : Shape α → List NodeId
  | .cls body => body.methods.filterMap (·.origin)
  | .interface body => body.methods.filterMap (·.origin)
  | .constructed c => c.decl.toList
  | .ref r => [r.decl]
  | _ => []

theorem nodes_mapUnder (f : List String → α → β) (s : Shape α) : (s.mapUnder f).nodes = s.nodes := by
  cases s <;> simp [mapUnder, nodes, mapMethods, List.filterMap_map]

theorem mem_parts_mapUnder {f : List String → α → β} {s : Shape α} {x : β} (h : x ∈ (s.mapUnder f).parts) :
    ∃ own, ∃ part ∈ s.parts, x = f own part := by
  -- first pair every part with the names that are bound around it, and then map the pairs
  have pairs : s.mapUnder f = (s.mapUnder Prod.mk).map fun pair => f pair.1 pair.2 := by
    rw [map, mapUnder_mapUnder]
  have parts : (s.mapUnder Prod.mk).parts.map Prod.snd = s.parts := by
    have forget : (s.mapUnder Prod.mk).map Prod.snd = s.map id := by
      rw [map, mapUnder_mapUnder]
      rfl
    rw [← parts_map, forget, parts_map, List.map_id]
  rw [pairs, parts_map] at h
  obtain ⟨⟨own, part⟩, hmem, rfl⟩ := List.mem_map.mp h
  exact ⟨own, part, parts ▸ List.mem_map_of_mem hmem, rfl⟩

/-- `mapUnder` leaves the problem of an error as it is. -/
theorem exists_error_of_mapUnder {f : List String → α → β} {s : Shape α} {e : Failure β}
    (h : s.mapUnder f = .error e) : ∃ e', s = .error e' ∧ e'.problem = e.problem := by
  cases s with
  | error e' => exact ⟨e', rfl, congrArg Failure.problem (Shape.error.inj h)⟩
  | _ => cases h

/-- `mapUnder` makes no layer nullable. -/
theorem exists_nullable_of_mapUnder {f : List String → α → β} {s : Shape α} {base : β}
    (h : s.mapUnder f = .nullable base) : ∃ base', s = .nullable base' := by
  cases s with
  | nullable base' => exact ⟨base', rfl⟩
  | _ => cases h

end Shape

/-! ## Scopes -/

/-- What types may mention: the nodes that they may point at, whether they may hold the placeholder, and whether they
may hold nullable layers that `Ty.nullable` does not build. -/
structure Scope where
  node : NodeId → Bool
  placeholder : Bool
  unbuilt : Bool

/-- The positions in an arena. -/
def Scope.arena (size : Nat) : Scope :=
  ⟨(· < size), true, true⟩

/-- Everything but the placeholder. -/
def Scope.settled : Scope :=
  ⟨fun _ => true, false, true⟩

/-- Everything but nullable layers that `Ty.nullable` does not build. -/
def Scope.normal : Scope :=
  ⟨fun _ => true, true, false⟩

/-- The nodes that a type points at, its parts left aside. -/
def Ty.nodes (t : Ty) : List NodeId :=
  t.origin.toList ++ t.shape.nodes

/-- Everything that a type mentions, at any depth, is in scope. -/
def Ty.InScope (scope : Scope) (t : Ty) : Prop :=
  t.everywhere (fun t => (scope.placeholder || !t.isPlaceholder) && (scope.unbuilt || t.isBuilt) &&
    t.nodes.all scope.node) = true

/-- Every node that a type points at, at any depth, is a position in an arena of a given size. -/
def Ty.Within (size : Nat) (t : Ty) : Prop :=
  t.everywhere (fun t => t.nodes.all (· < size)) = true

theorem Ty.within_iff_inScope {size : Nat} {t : Ty} : t.Within size ↔ t.InScope (.arena size) :=
  Iff.rfl

/-- Whether a type mentions the placeholder nowhere. -/
def Ty.isSettled (t : Ty) : Bool :=
  t.everywhere fun t => !t.isPlaceholder

theorem Ty.isSettled_iff_inScope {t : Ty} : t.isSettled = true ↔ t.InScope .settled := by
  constructor
  · exact everywhere_mono fun t ht => by simpa [Scope.settled] using ht
  · exact everywhere_mono fun t ht => by simpa [Scope.settled] using ht

theorem Ty.isNormal_iff_inScope {t : Ty} : t.isNormal = true ↔ t.InScope .normal := by
  constructor
  · exact everywhere_mono fun t ht => by simpa [Scope.normal] using ht
  · exact everywhere_mono fun t ht => by simpa [Scope.normal] using ht

theorem Ty.isPlaceholder_of_isSettled {t : Ty} (h : t.isSettled = true) : t.isPlaceholder = false := by
  simpa using (everywhere_iff.mp h).1

variable {scope : Scope}

/-- A layer mentions only what is in scope, and so do the parts. -/
structure Shape.InScope (scope : Scope) (s : Shape Ty) : Prop where
  nodes : ∀ id ∈ s.nodes, scope.node id = true
  problem : ∀ e, s = .error e → e.problem.isPlaceholder = true → scope.placeholder = true
  wrapped : ∀ base, s = .nullable base → base.isWrapped = false → scope.unbuilt = true
  parts : ∀ part ∈ s.parts, part.InScope scope

/-- The parts of a signature are in scope. -/
structure Signature.InScope (scope : Scope) (s : Signature Ty) : Prop where
  params : ∀ p ∈ s.params, p.type.InScope scope
  result : s.result.InScope scope
  generics : ∀ g ∈ s.generics, ∀ t ∈ g.constraint, t.InScope scope

/-- A method is in scope. -/
structure Method.InScope (scope : Scope) (m : Method Ty) : Prop where
  origin : ∀ id ∈ m.origin, scope.node id = true
  signature : m.signature.InScope scope

/-- The types that are bound are in scope. -/
def Bindings.InScope (scope : Scope) (bindings : Bindings) : Prop :=
  ∀ t ∈ bindings.values, t.InScope scope

theorem Signature.inScope_iff {s : Signature Ty} : s.InScope scope ↔ ∀ part ∈ s.parts, part.InScope scope := by
  constructor
  · rintro ⟨hparams, hresult, hgenerics⟩ part hpart
    simp only [parts, paramTypes, List.mem_append, List.mem_map, List.mem_cons, List.mem_filterMap] at hpart
    rcases hpart with ⟨p, hp, rfl⟩ | rfl | ⟨g, hg, hpart⟩
    · exact hparams p hp
    · exact hresult
    · exact hgenerics g hg part hpart
  · intro h
    refine ⟨fun p hp => h _ ?_, h _ (by simp [parts]), fun g hg t ht => h _ ?_⟩
    · exact List.mem_append_left _ (List.mem_map.mpr ⟨p, hp, rfl⟩)
    · exact List.mem_append_right _ (List.mem_cons_of_mem _ (List.mem_filterMap.mpr ⟨g, hg, ht⟩))

namespace Ty

theorem inScope_iff {t : Ty} :
    t.InScope scope ↔ (∀ id ∈ t.origin, scope.node id = true) ∧ t.shape.InScope scope := by
  have hnodes : t.nodes.all scope.node = true ↔
      (∀ id ∈ t.origin, scope.node id = true) ∧ ∀ id ∈ t.shape.nodes, scope.node id = true := by
    simp [nodes]
  have hproblem : (scope.placeholder || !t.isPlaceholder) = true ↔
      ∀ e, t.shape = .error e → e.problem.isPlaceholder = true → scope.placeholder = true := by
    unfold isPlaceholder problem?
    cases t.shape with
    | error e => cases h : e.problem.isPlaceholder <;> simp [h]
    | _ => simp
  have hbuilt : (scope.unbuilt || t.isBuilt) = true ↔
      ∀ base, t.shape = .nullable base → base.isWrapped = false → scope.unbuilt = true := by
    unfold isBuilt
    cases t.shape with
    | nullable base => cases h : base.isWrapped <;> simp [h]
    | _ => simp
  rw [InScope, everywhere_iff, Bool.and_eq_true, Bool.and_eq_true, hproblem, hbuilt, hnodes]
  constructor
  · rintro ⟨⟨⟨hproblem, hbuilt⟩, horigin, hlayer⟩, hparts⟩
    exact ⟨horigin, hlayer, hproblem, hbuilt, hparts⟩
  · rintro ⟨horigin, hlayer, hproblem, hbuilt, hparts⟩
    exact ⟨⟨⟨hproblem, hbuilt⟩, horigin, hlayer⟩, hparts⟩

@[simp] theorem inScope_of {s : Shape Ty} : (of s).InScope scope ↔ s.InScope scope := by
  simp [inScope_iff, of]

namespace InScope

variable {t : Ty}

theorem shape {s : Shape Ty} (h : t.InScope scope) (hs : t.shape = s) : s.InScope scope :=
  hs ▸ (inScope_iff.mp h).2

theorem origin (h : t.InScope scope) : ∀ id ∈ t.origin, scope.node id = true :=
  (inScope_iff.mp h).1

end InScope

end Ty

/-! ## One layer -/

namespace Shape

@[simp] theorem inScope_prim {p : Primitive} : (Shape.prim p).InScope scope :=
  ⟨by simp [nodes], by simp, by simp, by simp [parts]⟩

@[simp] theorem inScope_array {elem : Ty} : (Shape.array elem).InScope scope ↔ elem.InScope scope :=
  ⟨fun h => h.parts elem (by simp [parts]), fun h => ⟨by simp [nodes], by simp, by simp, by simpa [parts] using h⟩⟩

@[simp] theorem inScope_nullable {base : Ty} :
    (Shape.nullable base).InScope scope ↔ (base.isWrapped = false → scope.unbuilt = true) ∧ base.InScope scope := by
  constructor
  · exact fun h => ⟨h.wrapped base rfl, h.parts base (by simp [parts])⟩
  · rintro ⟨hwrapped, hbase⟩
    refine ⟨by simp [nodes], by simp, fun base' hbase' => ?_, by simpa [parts] using hbase⟩
    obtain rfl := Shape.nullable.inj hbase'
    exact hwrapped

@[simp] theorem inScope_union {members : List Ty} :
    (Shape.union members).InScope scope ↔ ∀ t ∈ members, t.InScope scope :=
  ⟨fun h => h.parts, fun h => ⟨by simp [nodes], by simp, by simp, h⟩⟩

@[simp] theorem inScope_join {members : List Ty} :
    (Shape.join members).InScope scope ↔ ∀ t ∈ members, t.InScope scope :=
  ⟨fun h => h.parts, fun h => ⟨by simp [nodes], by simp, by simp, h⟩⟩

@[simp] theorem inScope_tuple {elems : List Ty} : (Shape.tuple elems).InScope scope ↔ ∀ t ∈ elems, t.InScope scope :=
  ⟨fun h => h.parts, fun h => ⟨by simp [nodes], by simp, by simp, h⟩⟩

@[simp] theorem inScope_struct {body : StructBody Ty} :
    (Shape.struct body).InScope scope ↔ ∀ f ∈ body.fields, f.type.InScope scope :=
  ⟨fun h f hf => h.parts _ (List.mem_map.mpr ⟨f, hf, rfl⟩),
    fun h => ⟨by simp [nodes], by simp, by simp, by simpa [parts] using h⟩⟩

/-- `Method.InScope` holds of all methods of a layer if their nodes and the parts of their signatures are in scope. -/
theorem inScope_methods {methods : List (Method Ty)} :
    (∀ m ∈ methods, m.InScope scope) ↔ (∀ id ∈ methods.filterMap (·.origin), scope.node id = true) ∧
      ∀ part ∈ methods.flatMap (·.signature.parts), part.InScope scope := by
  simp only [List.mem_filterMap, List.mem_flatMap]
  constructor
  · intro h
    refine ⟨?_, ?_⟩
    · rintro id ⟨m, hm, hid⟩
      exact (h m hm).origin id hid
    · rintro part ⟨m, hm, hpart⟩
      exact Signature.inScope_iff.mp (h m hm).signature part hpart
  · rintro ⟨hnodes, hparts⟩ m hm
    refine ⟨fun id hid => hnodes id ⟨m, hm, hid⟩, Signature.inScope_iff.mpr fun part hpart => ?_⟩
    exact hparts part ⟨m, hm, hpart⟩

@[simp] theorem inScope_cls {body : ClassBody Ty} :
    (Shape.cls body).InScope scope ↔
      (∀ a ∈ body.attributes, a.type.InScope scope) ∧ (∀ m ∈ body.methods, m.InScope scope) ∧
      (∀ t ∈ body.supers, t.InScope scope) ∧ ∀ t ∈ body.impls, t.InScope scope := by
  rw [inScope_methods]
  constructor
  · rintro ⟨hnodes, -, -, hparts⟩
    simp only [parts, List.forall_mem_append, List.forall_mem_map] at hparts
    exact ⟨hparts.1.1.1, ⟨hnodes, hparts.1.1.2⟩, hparts.1.2, hparts.2⟩
  · rintro ⟨hattributes, ⟨hnodes, hmethods⟩, hsupers, himpls⟩
    refine ⟨hnodes, by simp, by simp, ?_⟩
    simp only [parts, List.forall_mem_append, List.forall_mem_map]
    exact ⟨⟨⟨hattributes, hmethods⟩, hsupers⟩, himpls⟩

@[simp] theorem inScope_interface {body : InterfaceBody Ty} :
    (Shape.interface body).InScope scope ↔
      (∀ m ∈ body.methods, m.InScope scope) ∧ ∀ t ∈ body.supers, t.InScope scope := by
  rw [inScope_methods]
  constructor
  · rintro ⟨hnodes, -, -, hparts⟩
    simp only [parts, List.forall_mem_append] at hparts
    exact ⟨⟨hnodes, hparts.1⟩, hparts.2⟩
  · rintro ⟨⟨hnodes, hmethods⟩, hsupers⟩
    refine ⟨hnodes, by simp, by simp, ?_⟩
    simp only [parts, List.forall_mem_append]
    exact ⟨hmethods, hsupers⟩

@[simp] theorem inScope_variant {cases : List (VariantCase Ty)} :
    (Shape.variant cases).InScope scope ↔ ∀ c ∈ cases, ∀ f ∈ c.params, f.type.InScope scope := by
  constructor
  · intro h c hc f hf
    exact h.parts _ (List.mem_flatMap.mpr ⟨c, hc, List.mem_map.mpr ⟨f, hf, rfl⟩⟩)
  · intro h
    refine ⟨by simp [nodes], by simp, by simp, fun part hpart => ?_⟩
    obtain ⟨c, hc, hpart⟩ := List.mem_flatMap.mp hpart
    obtain ⟨f, hf, rfl⟩ := List.mem_map.mp hpart
    exact h c hc f hf

@[simp] theorem inScope_constructed {c : Constructed Ty} :
    (Shape.constructed c).InScope scope ↔ (∀ id ∈ c.decl, scope.node id = true) ∧ c.variant.InScope scope ∧
      (∀ t ∈ c.args, t.InScope scope) ∧ ∀ f ∈ c.params, f.type.InScope scope := by
  constructor
  · rintro ⟨hnodes, -, -, hparts⟩
    simp only [nodes, parts, Option.mem_toList, List.cons_append, List.forall_mem_cons, List.forall_mem_append,
      List.forall_mem_map] at hnodes hparts
    exact ⟨hnodes, hparts⟩
  · rintro ⟨hnodes, hparts⟩
    refine ⟨by simpa [nodes] using hnodes, by simp, by simp, ?_⟩
    simp only [parts, List.cons_append, List.forall_mem_cons, List.forall_mem_append, List.forall_mem_map]
    exact hparts

@[simp] theorem inScope_enum {body : EnumBody} : (Shape.enum body).InScope scope :=
  ⟨by simp [nodes], by simp, by simp, by simp [parts]⟩

@[simp] theorem inScope_stringEnum {cases : List String} : (Shape.stringEnum cases).InScope scope :=
  ⟨by simp [nodes], by simp, by simp, by simp [parts]⟩

@[simp] theorem inScope_fn {s : Signature Ty} : (Shape.fn s).InScope scope ↔ s.InScope scope :=
  ⟨fun h => Signature.inScope_iff.mpr h.parts, fun h => ⟨by simp [nodes], by simp, by simp, Signature.inScope_iff.mp h⟩⟩

@[simp] theorem inScope_coroutine {s : Signature Ty} : (Shape.coroutine s).InScope scope ↔ s.InScope scope :=
  ⟨fun h => Signature.inScope_iff.mpr h.parts, fun h => ⟨by simp [nodes], by simp, by simp, Signature.inScope_iff.mp h⟩⟩

@[simp] theorem inScope_generic {g : Generic Ty} :
    (Shape.generic g).InScope scope ↔ ∀ t ∈ g.constraint, t.InScope scope :=
  ⟨fun h t ht => h.parts t (Option.mem_toList.mpr ht),
    fun h => ⟨by simp [nodes], by simp, by simp, by simpa [parts] using h⟩⟩

@[simp] theorem inScope_ref {r : Reference Ty} :
    (Shape.ref r).InScope scope ↔ scope.node r.decl = true ∧ ∀ t ∈ r.args, t.InScope scope :=
  ⟨fun h => ⟨h.nodes _ (by simp [nodes]), h.parts⟩, fun h => ⟨by simpa [nodes] using h.1, by simp, by simp, h.2⟩⟩

@[simp] theorem inScope_error {e : Failure Ty} :
    (Shape.error e).InScope scope ↔ (e.problem.isPlaceholder = true → scope.placeholder = true) ∧
      ∀ t ∈ e.expected, t.InScope scope := by
  constructor
  · exact fun h => ⟨h.problem e rfl, fun t ht => h.parts t (Option.mem_toList.mpr ht)⟩
  · rintro ⟨hproblem, hexpected⟩
    refine ⟨by simp [nodes], fun e' he' => ?_, by simp, by simpa [parts] using hexpected⟩
    obtain rfl := Shape.error.inj he'
    exact hproblem

end Shape

/-! ## Building types -/

namespace Ty

theorem prim_inScope (p : Primitive) : (prim p).InScope scope := by
  simp [prim]

theorem error_inScope {problem : Problem} (h : problem.isPlaceholder = false) : (error problem).InScope scope := by
  simp [error, h]

theorem error_within {size : Nat} (problem : Problem) : (error problem).Within size := by
  rw [within_iff_inScope]
  simp [error, Scope.arena]

theorem getD_inScope {found : Option Ty} {fallback : Ty} (hfound : ∀ t ∈ found, t.InScope scope)
    (hfallback : fallback.InScope scope) : (found.getD fallback).InScope scope := by
  cases found with
  | none => exact hfallback
  | some t => exact hfound t rfl

namespace InScope

variable {t : Ty}

theorem nullable (h : t.InScope scope) : t.nullable.InScope scope := by
  rw [nullable_eq]
  split
  · next hwrapped => simpa [hwrapped] using h
  · exact h

theorem stripNullable (h : t.InScope scope) : t.stripNullable.InScope scope := by
  unfold Ty.stripNullable
  split
  · next base hbase => exact (Shape.inScope_nullable.mp (h.shape hbase)).2
  · exact h

theorem withOrigin (h : t.InScope scope) {node : NodeId} (hnode : scope.node node = true) :
    (t.withOrigin node).InScope scope :=
  inScope_iff.mpr ⟨fun _ hid => Option.mem_some.mp hid ▸ hnode, h.shape rfl⟩

theorem withOrigin? (h : t.InScope scope) {node : Option NodeId} (hnode : ∀ id ∈ node, scope.node id = true) :
    (t.withOrigin? node).InScope scope := by
  cases node with
  | none => exact h
  | some id => exact h.withOrigin (hnode id rfl)

theorem orOrigin (h : t.InScope scope) {node : NodeId} (hnode : scope.node node = true) :
    (t.orOrigin node).InScope scope := by
  unfold Ty.orOrigin
  split
  · exact h
  · exact h.withOrigin hnode

end InScope

end Ty

/-! ## Substitution -/

namespace Bindings

variable {bindings : Bindings}

theorem InScope.get? (h : bindings.InScope scope) {name : String} {t : Ty} (ht : bindings.get? name = some t) :
    t.InScope scope :=
  Each.get? h ht

theorem InScope.shadow (h : bindings.InScope scope) (names : List String) : (bindings.shadow names).InScope scope :=
  fun t ht => h t (mem_values_of_mem_shadow ht)

theorem zip_inScope (names : List String) {types : List Ty} (h : ∀ t ∈ types, t.InScope scope) :
    (zip names types).InScope scope :=
  ofList_each fun pair hpair => h pair.2 (List.of_mem_zip hpair).2

end Bindings

namespace Ty

/-- `substitute` keeps a type in scope if the bindings are (`Bindings.InScope`). -/
theorem InScope.substitute {t : Ty} {bindings : Bindings} (h : t.InScope scope) (hbindings : bindings.InScope scope) :
    (t.substitute bindings).InScope scope := by
  induction t using induction_on_parts generalizing bindings with
  | step t ih =>
    cases hempty : bindings.isEmpty with
    | true => rwa [substitute_of_isEmpty hempty]
    | false =>
      -- a nullable layer is built again, all others stay
      have hreplaced (hlayer : ∀ base, t.shape ≠ .nullable base) : (t.replaced bindings).InScope scope := by
        refine inScope_iff.mpr ⟨h.origin, fun id hid => ?_, fun e he => ?_, fun base hbase => ?_, fun part hpart => ?_⟩
        · rw [replaced, Shape.nodes_mapUnder] at hid
          exact (h.shape rfl).nodes id hid
        · simp only [replaced] at he
          obtain ⟨e', he', hproblem⟩ := Shape.exists_error_of_mapUnder he
          rw [← hproblem]
          exact (h.shape rfl).problem e' he'
        · simp only [replaced] at hbase
          obtain ⟨base', hbase'⟩ := Shape.exists_nullable_of_mapUnder hbase
          exact absurd hbase' (hlayer base')
        · simp only [replaced] at hpart
          obtain ⟨own, part, hmem, rfl⟩ := Shape.mem_parts_mapUnder hpart
          exact ih part hmem ((h.shape rfl).parts part hmem) (hbindings.shadow own)
      rw [substitute_eq t hempty]
      split
      · next g hg =>
        cases hbound : bindings.get? g.name with
        | none => exact hreplaced fun base hbase => by simp [hg] at hbase
        | some bound => exact hbindings.get? hbound
      · next base hbase =>
        have hmem : base ∈ t.shape.parts := by simp [hbase, Shape.parts]
        exact (ih base hmem ((h.shape rfl).parts base hmem) hbindings).nullable
      · exact h
      · next hlayer _ => exact hreplaced hlayer

end Ty

/-- `instantiate` keeps the result of a signature in scope. -/
theorem Signature.InScope.instantiate_result {s : Signature Ty} {bindings : Bindings} (h : s.InScope scope)
    (hbindings : bindings.InScope scope) : (s.instantiate bindings).result.InScope scope :=
  h.result.substitute (hbindings.shadow _)

/-- `Prototype.member?` gives types in scope: built-in members mention nothing, so they mention what the element does.
-/
theorem Prototype.member?_inScope {target : PrototypeTarget} {name : String} {element : Ty}
    (h : element.InScope scope) : ∀ t ∈ member? target name element, t.InScope scope := by
  -- what the tables mention does not depend on the scope
  have table_nodes (found : BuiltIn Ty) (hfound : found ∈ (table target).members) : found.type.InScope scope := by
    have hnone : ∀ found ∈ (table target).members,
        found.type.everywhere (fun t => !t.isPlaceholder && t.isBuilt && t.nodes.isEmpty) = true := by
      cases target <;> decide
    refine Ty.everywhere_mono (fun t ht => ?_) (hnone found hfound)
    rw [Bool.and_eq_true, Bool.and_eq_true, List.isEmpty_iff] at ht
    rw [ht.1.1, ht.1.2, ht.2, Bool.or_true, Bool.or_true]
    rfl
  intro t ht
  obtain ⟨found, hfound, rfl⟩ := Option.map_eq_some_iff.mp ht
  refine (table_nodes found (List.mem_of_find?_eq_some hfound)).substitute (Bindings.zip_inScope _ ?_)
  simpa using h

/-! ## Simplification -/

namespace Ty

theorem mem_of_mem_distinct {members : List Ty} {t : Ty} (h : t ∈ distinct members) : t ∈ members := by
  have hfold : ∀ (rest kept : List Ty),
      t ∈ rest.foldl (fun kept t => if kept.contains t then kept else kept ++ [t]) kept → t ∈ kept ∨ t ∈ rest := by
    intro rest
    induction rest with
    | nil => exact fun kept hkept => .inl hkept
    | cons u rest ih =>
      intro kept hmem
      rw [List.foldl_cons] at hmem
      rcases ih _ hmem with hkept | hrest
      · split at hkept
        · exact .inl hkept
        · rcases List.mem_append.mp hkept with hkept | hu
          · exact .inl hkept
          · exact .inr (by simp_all)
      · exact .inr (List.mem_cons_of_mem u hrest)
  exact (hfold members [] h).resolve_left List.not_mem_nil

theorem collapse_inScope {wrap : List Ty → Shape Ty} {origin : Option NodeId} {members : List Ty}
    (hwrap : (∀ t ∈ members, t.InScope scope) → (wrap members).InScope scope)
    (horigin : ∀ id ∈ origin, scope.node id = true) (h : ∀ t ∈ members, t.InScope scope) :
    (collapse wrap origin members).InScope scope := by
  unfold collapse
  split
  · exact prim_inScope .never
  · exact h _ List.mem_cons_self
  · exact inScope_iff.mpr ⟨horigin, hwrap h⟩

theorem InScope.unionMembers {t : Ty} (h : t.InScope scope) : ∀ u ∈ t.unionMembers, u.InScope scope := by
  unfold Ty.unionMembers
  split
  · next members hmembers => exact Shape.inScope_union.mp (h.shape hmembers)
  · simpa using h

theorem InScope.joinMembers {t : Ty} (h : t.InScope scope) : ∀ u ∈ t.joinMembers, u.InScope scope := by
  unfold Ty.joinMembers
  split
  · next members hmembers => exact Shape.inScope_join.mp (h.shape hmembers)
  · simpa using h

theorem InScope.simplify {t : Ty} (h : t.InScope scope) : t.simplify.InScope scope := by
  induction t using induction_on_parts with
  | step t ih =>
    have hparts (part : Ty) (hpart : part ∈ t.shape.parts) : (part.foldWith simplifyStep ()).InScope scope :=
      ih part hpart ((h.shape rfl).parts part hpart)
    rw [Ty.simplify, foldWith_eq]
    cases hshape : t.shape with
    | union members =>
      rw [hshape] at hparts
      refine collapse_inScope Shape.inScope_union.mpr h.origin fun u hu => ?_
      obtain ⟨m, hm, hu⟩ := List.mem_flatMap.mp (mem_of_mem_distinct hu)
      obtain ⟨part, hpart, rfl⟩ := List.mem_map.mp hm
      exact (hparts part hpart).unionMembers u hu
    | join members =>
      rw [hshape] at hparts
      refine collapse_inScope Shape.inScope_join.mpr h.origin fun u hu => ?_
      obtain ⟨m, hm, hu⟩ := List.mem_flatMap.mp (mem_of_mem_distinct hu)
      obtain ⟨part, hpart, rfl⟩ := List.mem_map.mp hm
      exact (hparts part hpart).joinMembers u hu
    | nullable base => exact (hparts base (by simp [hshape, Shape.parts])).nullable
    | array elem =>
      refine inScope_iff.mpr ⟨h.origin, Shape.inScope_array.mpr ?_⟩
      exact hparts elem (by simp [hshape, Shape.parts])
    | _ => exact h

end Ty

/-! ## Solving generic parameters -/

/-- `InScope` is `Ty.Inherited`, so matching keeps it. -/
theorem Ty.inherited_inScope : Ty.Inherited (·.InScope scope) where
  part h hpart := (h.shape rfl).parts _ (Shape.mem_parts_of_mem_visited hpart)
  prim := Ty.prim_inScope
  nullable h := h.nullable

/-- `solveGenerics` binds types in scope if the arguments are. -/
theorem Bindings.solveGenerics_inScope (names : List String) (params : List Ty) {args : List Ty}
    (h : ∀ t ∈ args, t.InScope scope) : (solveGenerics names params args).InScope scope :=
  solveGenerics_each Ty.inherited_inScope names params h

end Ascribe
