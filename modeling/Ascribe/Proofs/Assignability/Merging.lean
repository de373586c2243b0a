import Mathlib.Data.List.Nodup
import Ascribe.Proofs.Assignability.Named
import Ascribe.Proofs.Primitive
import Ascribe.Proofs.Ty.Parts

/-!
# Types that merge

Several types are merged into one that they all can be assigned to: numbers into a wider number, structs into the
struct of the fields they share, constructors into their variant. Fields of one name, and arguments at one place,
are merged in turn.

Merging structs is sound if no struct has two fields of one name. Merging constructors is not sound in general:
arguments that differ only fit if neither is primitive, and numbers at one place are merged into a wider number.
`Mergeable` says what is asked of all types that meet on the way, and `Mergeable.of_everywhere` is a test that
computes.
-/

namespace Ascribe

/-- `find?` by name finds an element of a list, if no other one has that name. -/
theorem find?_of_mem {α : Type} {name : α → String} {xs : List α} {x : α} (h : x ∈ xs) (hnames : (xs.map name).Nodup) :
    xs.find? (name · == name x) = some x := by
  cases hfound : xs.find? (name · == name x) with
  | none =>
    have hnone := List.find?_eq_none.mp hfound x h
    simp at hnone
  | some found =>
    have hname : name found = name x := by simpa using List.find?_some hfound
    rw [List.inj_on_of_nodup_map hnames (List.mem_of_find?_eq_some hfound) h hname]

theorem StructBody.field?_of_mem {body : StructBody Ty} {field : Field Ty} (h : field ∈ body.fields)
    (hnames : (body.fields.map (·.name)).Nodup) : body.field? field.name = some field :=
  find?_of_mem h hnames

namespace Assignability

variable {f : Unfolding} {R : Ty → Ty → Prop}

/-- A `Structural` pair of types that are neither named nor nullable satisfies `Rule`. -/
theorem Rule.of_structural {a e : Ty} (ha : a.reference? = none) (he : e.reference? = none)
    (ha' : a.isNullable = false) (he' : e.isNullable = false) (hstructural : Structural f R a e) : Rule f R a e := by
  have hgeneral : General f R a e := by simpa [General, ha, he] using hstructural
  refine .inr (.inr (.inr (.inr (.inr ?_))))
  rw [Ty.reference?_eq_none_iff] at ha he
  unfold Proper
  split
  · next hshape => simp [Ty.isNullable, hshape] at he'
  · next hshape => simp [Ty.isNullable, hshape] at he'
  · next hshape _ _ => simp [Ty.isNullable, hshape] at he'
  · next hshape _ => simp [Ty.isNullable, hshape] at ha'
  · next hshape _ => exact absurd hshape (ha _)
  · next hshape => exact absurd hshape (he _)
  · exact hgeneral

/-! ## Relations that contain what they justify -/

/-- A relation that contains whatever the rules justify from it. -/
def Closed (f : Unfolding) (R : Ty → Ty → Prop) : Prop :=
  ∀ a e, Rule f R a e → R a e

namespace Closed

variable (h : Closed f R) {a e x t : Ty}

include h

theorem of_same (hsame : a.same e = true) : R a e :=
  h a e (.inl hsame)

theorem of_structural (ha : a.reference? = none) (he : e.reference? = none) (ha' : a.isNullable = false)
    (he' : e.isNullable = false) (hstructural : Structural f R a e) : R a e :=
  h a e (.of_structural ha he ha' he' hstructural)

/-- A type is related to one that is not named if its `meaning` is. -/
theorem of_meaning (hx : (f.meaning x).reference? = none) (ht : t.reference? = none) (ht' : t.isNullable = false)
    (hmeaning : R (f.meaning x) t) : R x t := by
  cases href : x.reference? with
  | none => rwa [Unfolding.meaning_of_unnamed href] at hmeaning
  | some r =>
    have hresolved : Resolved R (f.declared x) (f.declared t) := by
      rw [Unfolding.declared_of_unnamed ht]
      exact resolved_unnamed hx ht (.inr rfl) hmeaning
    refine h x t ((rule_from_named_iff (Ty.reference?_eq_some.mp href)).mpr ?_)
    rw [Ty.reference?_eq_none_iff] at ht
    split
    · next hshape => simp [Ty.isNullable, hshape] at ht'
    · next hshape => exact absurd hshape (ht _)
    · exact .inr (.inr hresolved)

/-- A type whose `meaning` is a number is related to every number type it `coercesTo`. -/
theorem prim {p r : Primitive} (hx : (f.meaning x).primitive? = some p) (hwider : p.coercesTo r = true) :
    R x (.prim r) := by
  rw [Ty.primitive?_eq_some] at hx
  have hunnamed : (f.meaning x).reference? = none := by simp [Ty.reference?, hx]
  refine h.of_meaning hunnamed rfl rfl (h.of_structural hunnamed rfl (by simp [Ty.isNullable, hx]) rfl ?_)
  rw [Structural, hx]
  exact hwider

/-- A type whose `meaning` is a struct is related to a struct if `FieldsFit`. -/
theorem struct {body : StructBody Ty} {fields : List (Field Ty)} {isAnonymous : Bool}
    (hx : (f.meaning x).structBody? = some body) (hfields : FieldsFit R body ⟨fields, isAnonymous⟩) :
    R x (.struct fields isAnonymous) := by
  rw [Ty.structBody?_eq_some] at hx
  have hunnamed : (f.meaning x).reference? = none := by simp [Ty.reference?, hx]
  refine h.of_meaning hunnamed rfl rfl (h.of_structural hunnamed rfl (by simp [Ty.isNullable, hx]) rfl ?_)
  rw [Structural, hx]
  exact hfields

/-- A constructor is related to its variant at arguments that are in `Fits`. -/
theorem constructed {c : Constructed Ty} {decl : NodeId} {name : String} {args : List Ty}
    (hx : x.constructed? = some c) (hdecl : c.decl = some decl) (hargs : List.Forall₂ (Fits R) c.args args) :
    R x (.reference decl name args) := by
  rw [Ty.constructed?_eq_some] at hx
  refine h _ _ ((rule_to_named_iff (r := ⟨decl, name, args⟩) rfl).mpr ?_)
  rw [hx]
  dsimp only
  rw [if_pos ⟨hdecl, hargs.length_eq⟩]
  exact hargs

theorem of_never (hx : x.isNever = true) : R x t :=
  h x t (.inr (.inl hx))

theorem null {origin : Option NodeId} (hx : x.isNull = true) : R x ⟨.nullable t, origin⟩ := by
  have hshape : x.shape = .prim .null := Ty.primitive?_eq_some.mp (by simpa [Ty.isNull, Ty.isPrimitive] using hx)
  refine h _ _ (.inr (.inr (.inr (.inr (.inr ?_)))))
  rw [Proper, hshape]
  trivial

/-- A type that is not `isNullable` is related to a nullable type if it is to its base. -/
theorem to_nullable {origin : Option NodeId} (hx : x.isNullable = false) (hbase : R x t) :
    R x ⟨.nullable t, origin⟩ := by
  refine h _ _ (.inr (.inr (.inr (.inr (.inr ?_)))))
  cases hshape : x.shape with
  | nullable base => simp [Ty.isNullable, hshape] at hx
  | prim p => cases p <;> simp [Proper, hshape, hbase]
  | _ => simpa [Proper, hshape] using hbase

/-- A `nullable` type is related to another one if their bases are. -/
theorem nullable {origin : Option NodeId} (hx : x.shape = .nullable a) (hbase : R a t) :
    R x ⟨.nullable t, origin⟩ := by
  refine h _ _ (.inr (.inr (.inr (.inr (.inr ?_)))))
  simpa [Proper, hx] using hbase

/-- What can be assigned to a nullable type can be assigned to the one that `nullable` builds. -/
theorem built (ht : t.isNullable = false) (ht' : t.isNull = false) (hx : R x (.of (.nullable t))) :
    R x t.nullable := by
  rw [Ty.nullable_eq]
  split
  · exact hx
  · next hwrapped =>
    cases hany : t.isAny with
    | true => exact h x t (.inr (.inr (.inr (.inr (.inl hany)))))
    | false =>
      have herror : t.isError = true := by simpa [Ty.isWrapped, ht, ht', hany] using hwrapped
      exact h x t (.inr (.inr (.inr (.inl herror))))

end Closed

end Assignability

/-! ## Types that meet -/

/-- Two types meet when `types` are merged: two of them, fields of one name in structs that meet, or arguments at one
place in constructors that meet. -/
inductive Meet (f : Unfolding) (types : List Ty) : Ty → Ty → Prop where
  | branches {x y : Ty} (hx : x ∈ types) (hy : y ∈ types) : Meet f types x y
  | fields {x y : Ty} {body body' : StructBody Ty} {field found : Field Ty} (h : Meet f types x y)
    (hx : (f.meaning x).structBody? = some body) (hy : (f.meaning y).structBody? = some body')
    (hfield : field ∈ body.fields) (hfound : body'.field? field.name = some found) :
    Meet f types field.type found.type
  | arguments {x y u v : Ty} {c c' : Constructed Ty} {place : Nat} (h : Meet f types x y)
    (hx : (f.meaning x).constructed? = some c) (hy : (f.meaning y).constructed? = some c')
    (hu : c.args[place]? = some u) (hv : c'.args[place]? = some v) : Meet f types u v

/-- Two arguments can stand at one place: `never` leaves the place to the other, and otherwise they are the same, or
neither is primitive and not both stand for a primitive. -/
def SharePlace (f : Unfolding) (u v : Ty) : Prop :=
  u.isNever = true ∨ v.isNever = true ∨ u.same v = true ∨
    u.primitive? = none ∧ v.primitive? = none ∧ ((f.meaning u).primitive? = none ∨ (f.meaning v).primitive? = none)

/-- What is asked of types so that they can be merged. Structs that meet have no two fields of one name. Constructors of
one variant that meet and are not the same are given as such and not by a name, have as many arguments, and their
arguments can stand at one place. -/
structure Mergeable (f : Unfolding) (types : List Ty) : Prop where
  fields : ∀ {x y : Ty} {body : StructBody Ty}, Meet f types x y → (f.meaning x).structBody? = some body →
    (body.fields.map (·.name)).Nodup
  constructors : ∀ {x y : Ty} {c c' : Constructed Ty} {decl : NodeId}, Meet f types x y → x.same y = false →
    (f.meaning x).constructed? = some c → (f.meaning y).constructed? = some c' → c.decl = some decl →
    c'.decl = some decl → x.reference? = none ∧ c.args.length = c'.args.length ∧
      ∀ {place : Nat} {u v : Ty}, c.args[place]? = some u → c'.args[place]? = some v → SharePlace f u v

/-- What has become of types that were merged into `t`. -/
structure UpperBound (f : Unfolding) (R : Ty → Ty → Prop) (types : List Ty) (t : Ty) : Prop where
  /-- All of them can be assigned to it. -/
  above : ∀ x ∈ types, R x t
  /-- If they are the same, it is the same as well. -/
  same : (∀ x ∈ types, ∀ y ∈ types, x.same y = true) → ∀ x ∈ types, x.same t = true
  /-- It is one of them, or a type that `nullable` wraps; and then it is not primitive unless they all stand for
  primitives. -/
  merged : t ∈ types ∨
    t.isWrapped = true ∧ (t.primitive? = none ∨ ∀ x ∈ types, (f.meaning x).primitive? ≠ none)

variable {f : Unfolding} {R : Ty → Ty → Prop} {types : List Ty}

/-- `UpperBound` of types that are not all the same: it is enough to know where they are merged and that it is above
them. -/
theorem UpperBound.of_differ {t : Ty} (hdiffer : ∃ x ∈ types, ∃ y ∈ types, x.same y = false)
    (habove : ∀ x ∈ types, R x t) (hmerged : t ∈ types ∨
      t.isWrapped = true ∧ (t.primitive? = none ∨ ∀ x ∈ types, (f.meaning x).primitive? ≠ none)) :
    UpperBound f R types t where
  above := habove
  same hsame := by
    obtain ⟨x, hx, y, hy, hxy⟩ := hdiffer
    exact nomatch (hsame x hx y hy).symm.trans hxy
  merged := hmerged

/-- `Meet` is transitive: what meets among types that meet among others meets among those. -/
theorem Meet.of_forall {others : List Ty} (h : ∀ x ∈ others, ∀ y ∈ others, Meet f types x y) {x y : Ty}
    (hmeet : Meet f others x y) : Meet f types x y := by
  induction hmeet with
  | branches hx hy => exact h _ hx _ hy
  | fields _ hx hy hfield hfound ih => exact .fields ih hx hy hfield hfound
  | arguments _ hx hy hu hv ih => exact .arguments ih hx hy hu hv

/-- Types that `Meet` have any property that the merged types have and that fields and arguments inherit. -/
theorem Meet.both {P : Ty → Prop} (htypes : ∀ x ∈ types, P x)
    (hfields : ∀ x body, P x → (f.meaning x).structBody? = some body → ∀ field ∈ body.fields, P field.type)
    (harguments : ∀ x c, P x → (f.meaning x).constructed? = some c → ∀ u ∈ c.args, P u) {x y : Ty}
    (hmeet : Meet f types x y) : P x ∧ P y := by
  induction hmeet with
  | branches hx hy => exact ⟨htypes _ hx, htypes _ hy⟩
  | fields _ hx hy hfield hfound ih =>
    exact ⟨hfields _ _ ih.1 hx _ hfield, hfields _ _ ih.2 hy _ (List.mem_of_find?_eq_some hfound)⟩
  | arguments _ hx hy hu hv ih =>
    exact ⟨harguments _ _ ih.1 hx _ (List.mem_of_getElem? hu), harguments _ _ ih.2 hy _ (List.mem_of_getElem? hv)⟩

theorem Mergeable.of_forall {others : List Ty} (hmerge : Mergeable f types)
    (h : ∀ x ∈ others, ∀ y ∈ others, Meet f types x y) : Mergeable f others where
  fields hmeet := hmerge.fields (hmeet.of_forall h)
  constructors hmeet := hmerge.constructors (hmeet.of_forall h)

/-- A test of one type by itself that lets it merge with any others that pass it as well: the fields of a struct have
different names; a constructor has as many arguments as its declaration asks for, each of them `never` or neither
primitive nor named; and a named type is one of some that stand for primitives. -/
def Ty.mergesFreely (arity : Option NodeId → Nat) (plain : Reference Ty → Bool) (t : Ty) : Bool :=
  match t.shape with
  | .struct body => decide (body.fields.map (·.name)).Nodup
  | .constructed c =>
    c.args.length == arity c.decl &&
      c.args.all fun u => u.isNever || (u.primitive?.isNone && u.reference?.isNone)
  | .ref r => plain r
  | _ => true

section Freely

variable {arity : Option NodeId → Nat} {plain : Reference Ty → Bool}
  (hplain : ∀ r, plain r = true → ∃ p, (f r).primitive? = some p)

include hplain

/-- A type that `mergesFreely` is no name for a struct or a constructor. -/
theorem views_of_mergesFreely {x : Ty} (hx : x.mergesFreely arity plain = true) :
    (f.meaning x).structBody? = x.structBody? ∧ (f.meaning x).constructed? = x.constructed? := by
  cases href : x.reference? with
  | none => simp [Unfolding.meaning_of_unnamed href]
  | some r =>
    have hshape := Ty.reference?_eq_some.mp href
    rw [Ty.mergesFreely, hshape] at hx
    obtain ⟨p, hp⟩ := hplain r hx
    rw [Ty.primitive?_eq_some] at hp
    rw [Unfolding.meaning_of_named href (by simp [Ty.reference?, hp])]
    simp [Ty.structBody?, Ty.constructed?, hp, hshape]

/-- Types that `Meet` pass `mergesFreely` if the merged types do `everywhere`. -/
theorem Meet.mergesFreely (h : ∀ x ∈ types, x.everywhere (Ty.mergesFreely arity plain) = true) {x y : Ty}
    (hxy : Meet f types x y) : x.mergesFreely arity plain = true ∧ y.mergesFreely arity plain = true := by
  have hboth := hxy.both (P := (·.everywhere (Ty.mergesFreely arity plain) = true)) h ?_ ?_
  · exact ⟨(Ty.everywhere_iff.mp hboth.1).1, (Ty.everywhere_iff.mp hboth.2).1⟩
  · intro x body hx hbody field hfield
    rw [Ty.everywhere_iff] at hx
    rw [(views_of_mergesFreely hplain hx.1).1, Ty.structBody?_eq_some] at hbody
    refine hx.2 field.type ?_
    rw [hbody]
    exact List.mem_map_of_mem hfield
  · intro x c hx hc u hu
    rw [Ty.everywhere_iff] at hx
    rw [(views_of_mergesFreely hplain hx.1).2, Ty.constructed?_eq_some] at hc
    refine hx.2 u ?_
    rw [hc]
    exact List.mem_cons_of_mem _ (List.mem_append_left _ hu)

/-- Types that pass `Ty.mergesFreely` everywhere are `Mergeable`. -/
theorem Mergeable.of_everywhere (h : ∀ x ∈ types, x.everywhere (Ty.mergesFreely arity plain) = true) :
    Mergeable f types := by
  refine ⟨fun {x y body} hxy hbody => ?_, fun {x y c c' decl} hxy _ hc hc' hdecl hdecl' => ?_⟩
  · have hx := (hxy.mergesFreely hplain h).1
    rw [(views_of_mergesFreely hplain hx).1, Ty.structBody?_eq_some] at hbody
    rw [Ty.mergesFreely, hbody] at hx
    exact of_decide_eq_true hx
  · obtain ⟨hx, hy⟩ := hxy.mergesFreely hplain h
    rw [(views_of_mergesFreely hplain hx).2, Ty.constructed?_eq_some] at hc
    rw [(views_of_mergesFreely hplain hy).2, Ty.constructed?_eq_some] at hc'
    rw [Ty.mergesFreely, hc] at hx
    rw [Ty.mergesFreely, hc'] at hy
    simp only [Bool.and_eq_true, beq_iff_eq, List.all_eq_true, Bool.or_eq_true, Option.isNone_iff_eq_none] at hx hy
    refine ⟨by simp [Ty.reference?, hc], by rw [hx.1, hy.1, hdecl, hdecl'], fun {place u v} hu hv => ?_⟩
    rcases hx.2 u (List.mem_of_getElem? hu) with hnever | ⟨hprimitive, hunnamed⟩
    · exact .inl hnever
    rcases hy.2 v (List.mem_of_getElem? hv) with hnever | ⟨hprimitive', -⟩
    · exact .inr (.inl hnever)
    refine .inr (.inr (.inr ⟨hprimitive, hprimitive', .inl ?_⟩))
    rw [Unfolding.meaning_of_unnamed hunnamed, hprimitive]

end Freely

/-- Unless they are all `same`, some type differs from a given one. -/
theorem exists_differs (hdiffer : ∃ y ∈ types, ∃ z ∈ types, y.same z = false) (x : Ty) :
    ∃ y ∈ types, x.same y = false := by
  obtain ⟨y, hy, z, hz, hyz⟩ := hdiffer
  by_contra hall
  have hsame : ∀ y ∈ types, x.same y = true := by simpa using hall
  have hxy := (Ty.same_iff_erase_eq x y).mp (hsame y hy)
  have hxz := (Ty.same_iff_erase_eq x z).mp (hsame z hz)
  rw [(Ty.same_iff_erase_eq y z).mpr (hxy.symm.trans hxz)] at hyz
  exact nomatch hyz

open Assignability in
/-- Arguments that can stand at one place are in `Fits` with what they are merged into. -/
theorem UpperBound.fits {t : Ty} (h : UpperBound f R types t)
    (hshare : ∀ x ∈ types, ∀ y ∈ types, x.same y = true ∨
      x.primitive? = none ∧ y.primitive? = none ∧ ((f.meaning x).primitive? = none ∨ (f.meaning y).primitive? = none))
    {x : Ty} (hx : x ∈ types) : Fits R x t := by
  by_cases hsame : ∀ y ∈ types, ∀ z ∈ types, y.same z = true
  · exact .inl (h.same hsame x hx)
  have hdiffer : ∃ y ∈ types, ∃ z ∈ types, y.same z = false := by simpa using hsame
  obtain ⟨y, hy, hxy⟩ := exists_differs hdiffer x
  obtain ⟨hprimitive, -, hmeaning⟩ := (hshare x hx y hy).resolve_left (by simp [hxy])
  rcases h.merged with ht | ⟨-, ht | hall⟩
  · rcases hshare x hx t ht with hxt | ⟨-, ht', -⟩
    · exact .inl hxt
    · exact .inr (.inr (.inr ⟨hprimitive, ht', h.above x hx⟩))
  · exact .inr (.inr (.inr ⟨hprimitive, ht, h.above x hx⟩))
  · rcases hmeaning with hnone | hnone
    · exact absurd hnone (hall x hx)
    · exact absurd hnone (hall y hy)

end Ascribe
