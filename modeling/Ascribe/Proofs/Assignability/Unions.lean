import Ascribe.Proofs.Assignability.Fixed
import Ascribe.Proofs.Assignability.Unresolved

/-!
# Unions

A union should be assignable to a type if all of its members are, and a type to a union if it is assignable to one
of its members. Comparison does not keep these laws. It looks at a union only after it has taken the null off a
nullable type and has replaced named types by what they stand for, and at the union that is assigned to only after
it has gone from a generic parameter to its bound. So a member that is null is refused once the null is gone
(`nullMember_refused`), and a nullable type or a generic parameter is refused where it is a member itself
(`ownMember_refused`).

The laws hold apart from that. What has been taken off or replaced must not matter to the members: `Replaceable` says
so of a named type in front of which a union is taken apart, and `Introduction` of a type that is compared with a
union.

## Key results

- `Unfolding.accepts_of_members`: a union is accepted for a type if its members are
- `Unfolding.accepts_union`: a type is accepted for a union if it is for a member
-/

namespace Ascribe

open Assignability

variable {a e base m x : Ty} {members : List Ty}

/-! ## Layers of null -/

namespace Ty

theorem core_of_not_nullable {t : Ty} (h : t.isNullable = false) : t.core = t := by
  refine core_eq_self fun base hshape => ?_
  simp [isNullable, hshape] at h

theorem isNullable_core (t : Ty) : t.core.isNullable = false := by
  fun_induction core t with
  | case1 base origin ih => exact ih
  | case2 t hnullable =>
    obtain ⟨shape, origin⟩ := t
    cases shape with
    | nullable base => exact absurd rfl (hnullable base origin)
    | _ => rfl

/-- A type whose `core` is not named is not named. -/
theorem reference?_of_core {t : Ty} (h : t.core.reference? = none) : t.reference? = none := by
  cases hnullable : t.isNullable with
  | false => rwa [core_of_not_nullable hnullable] at h
  | true =>
    rw [reference?_eq_none_iff]
    intro r hshape
    simp [isNullable, hshape] at hnullable

end Ty

namespace Assignability

variable {f : Unfolding} {R : Ty → Ty → Prop}

/-- `Rule` for a nullable type that another type is assigned to. -/
theorem rule_to_nullable_iff (he : e.shape = .nullable base) (hnull : a.isNull = false)
    (hnullable : a.isNullable = false) :
    Rule f R a e ↔ a.isNever = true ∨ a.isError = true ∨ R a base := by
  have hany : e.isAny = false := by simp [Ty.isAny, Ty.isPrimitive, Ty.primitive?, he]
  have herror : e.isError = false := by simp [Ty.isError, Ty.problem?, he]
  have hsame : a.same e = false := by
    rw [Ty.same_eq, he]
    unfold Ty.isNullable at hnullable
    cases ha : a.shape <;> simp_all [Shape.agree]
  have hproper : Proper f R a e ↔ R a base := by
    unfold Proper
    rw [he]
    simp only [Ty.isNull, Ty.isPrimitive, Ty.primitive?, Ty.isNullable] at hnull hnullable
    split <;> simp_all
  simp [Rule, hsame, hany, herror, hproper]

/-- A type that does not admit null is related to a type if it is to its `core`. -/
theorem Closed.of_core (h : Closed f R) (ha : a.isNullable = false) (hcore : R a e.core) : R a e := by
  fun_induction Ty.core e with
  | case1 base origin ih => exact h.to_nullable ha (ih hcore)
  | case2 e _ => exact hcore

/-- If one of two `Resolved` types is not named, then neither is the other, and they are the same or related. -/
theorem Resolved.of_unnamed {x y : Option NodeId × Ty} (h : Resolved R x y)
    (hunnamed : x.2.reference? = none ∨ y.2.reference? = none) :
    x.2.reference? = none ∧ y.2.reference? = none ∧ (x.2.same y.2 = true ∨ R x.2 y.2) := by
  have hsame (hxy : x.2.same y.2 = true) : x.2.reference? = none ∧ y.2.reference? = none := by
    have href := congrArg Ty.reference? ((Ty.same_iff_erase_eq _ _).mp hxy)
    rcases hunnamed with hx | hy
    · simpa [hx, eq_comm] using href
    · simpa [hy] using href
  revert h
  unfold Resolved
  split
  · next hx hy =>
    have hclasses : x.2.reference? = none ∧ y.2.reference? = none := by simp [Ty.reference?, hx, hy]
    split
    · exact fun h => ⟨hclasses.1, hclasses.2, .inl h.2⟩
    · exact fun h => ⟨hclasses.1, hclasses.2, h⟩
  · exact fun h => ⟨(hsame h).1, (hsame h).2, .inl h⟩
  · exact fun h => ⟨(hsame h).1, (hsame h).2, .inl h⟩
  · next hx hy _ => exact fun h => ⟨Ty.reference?_eq_none_iff.mpr hx, Ty.reference?_eq_none_iff.mpr hy, h⟩

end Assignability

namespace AcceptedUnder

variable {resolve : Resolver Unit} {assumed : Assumptions}

/-- A type that is not null itself is accepted for the `core` of a nullable type that it is accepted for. -/
theorem core {f : Unfolding} (hresolve : resolve.Follows f) (hnull : a.isNull = false)
    (hnullable : a.isNullable = false) (h : AcceptedUnder resolve assumed a e) :
    AcceptedUnder resolve assumed a e.core := by
  fun_induction Ty.core e with
  | case1 base origin ih =>
    have hname : Comparer.byName a ⟨.nullable base, origin⟩ = false := by
      simp [Comparer.byName, Comparer.isSpecial, Ty.isNullable]
    rcases (rule_to_nullable_iff rfl hnull hnullable).mp (h.rule hresolve hname) with hnever | herror | hbase
    · exact .of_trivial (.inr (.inl hnever))
    · exact .of_trivial (.inr (.inr herror))
    · exact ih hbase
  | case2 e _ => exact h

end AcceptedUnder

namespace Unfolding

variable {f : Unfolding}

theorem Accepts.core (hnull : a.isNull = false) (hnullable : a.isNullable = false) (h : f.Accepts a e) :
    f.Accepts a e.core :=
  accepts_iff.mpr ((accepts_iff.mp h).core resolver_follows hnull hnullable)

theorem Accepts.of_core (hnullable : a.isNullable = false) (h : f.Accepts a e.core) : f.Accepts a e := by
  fun_induction Ty.core e with
  | case1 base origin ih =>
    obtain ⟨depth, hbase⟩ := ih h
    refine ⟨depth + 1, ?_⟩
    rw [AcceptsAt, compareWithin, Comparer.step]
    split
    · rfl
    split
    · rfl
    unfold Ty.isNullable at hnullable
    split <;> simp_all
    · rfl
    · exact hbase
  | case2 e _ => exact h

/-! ## What named types stand for -/

/-- The `meaning` of types that are accepted `Comparer.byName` is `AcceptedUnder` the assumption of the types. -/
theorem Accepts.meanings (h : f.Accepts a e) (hname : Comparer.byName a e = true)
    (hunnamed : (f.meaning a).reference? = none ∨ (f.meaning e).reference? = none) :
    (f.meaning a).reference? = none ∧ (f.meaning e).reference? = none ∧
      AcceptedUnder (σ := Unit) f.resolver [(a.text, e.text)] (f.meaning a) (f.meaning e) := by
  have hresolved := ((accepts_iff.mp h).resolved resolver_follows hname).resolve_left List.not_mem_nil
  obtain ⟨ha, he, hmeanings⟩ := hresolved.of_unnamed hunnamed
  refine ⟨ha, he, ?_⟩
  rcases hmeanings with hsame | hunder
  · exact .of_trivial (.inl hsame)
  · exact hunder

/-- The assumption of a pair in `Accepts` can be dropped, apart from its namesakes. -/
theorem accepted_of_assumed (hf : f.Respects) {pairs : List (Ty × Ty)} (hpairs : ∀ p ∈ pairs, f.Accepts p.1 p.2)
    (hpair : (a, e) ∈ pairs) {y : Ty} (h : AcceptedUnder (σ := Unit) f.resolver [(a.text, e.text)] x y) :
    Accepted (σ := Unit) (refuseNamesakes pairs) f.resolver x y := by
  have hassumed (assumed : Assumptions) : [(a.text, e.text)] ⊆ assumed ++ assumptions pairs :=
    List.cons_subset.mpr ⟨List.mem_append_right _ (List.mem_map_of_mem hpair), List.nil_subset _⟩
  intro depth assumed
  exact compareWatched_accepts resolver_follows hf (fun p hp => accepts_iff.mp (hpairs p hp)) (hassumed assumed)
    depth rfl rfl h

theorem meaning_congr (hf : f.Respects) (h : a.same e = true) : (f.meaning a).same (f.meaning e) = true := by
  rw [Ty.same_iff_erase_eq] at h ⊢
  exact (declared_congr hf h).2

theorem reference?_eq_none_of_same (h : a.same e = true) (he : e.reference? = none) : a.reference? = none := by
  have href := congrArg Ty.reference? ((Ty.same_iff_erase_eq _ _).mp h)
  simpa [he] using href

/-! ## Taking a union apart -/

theorem Accepts.of_members (ha : a.shape = .union members) (hnull : e.isNullable = false)
    (hname : e.reference? = none) (h : ∀ m ∈ members, f.Accepts m e) : f.Accepts a e := by
  have hunion : a.isNullable = false ∧ a.reference? = none := by simp [Ty.isNullable, Ty.reference?, ha]
  have hpairs : ∀ p ∈ members.map (·, e), f.Accepts p.1 p.2 := by simpa using h
  obtain ⟨depth, hmembers⟩ := exists_acceptsAt hpairs
  refine ⟨depth + 1, ?_⟩
  rw [AcceptsAt, compareWithin]
  by_cases htrivial : (a.same e || a.isNever || a.isError || e.isError || e.isAny) = true
  · rw [Comparer.step, Ty.beq_eq_same]
    split
    · rfl
    · rw [if_pos (by simp_all)]
      rfl
  · have hspecial : Comparer.isSpecial a e = false := by
      simp only [Bool.not_eq_true] at htrivial
      simp [Comparer.isSpecial, htrivial, hunion, hnull, hname]
    rw [Comparer.step_of_not_special hspecial, Comparer.general, hunion.2, hname, Comparer.structural, ha]
    exact Comparer.run_every fun m hm => hmembers (m, e) (List.mem_map_of_mem hm)

/-- In front of a union, a named type can be replaced by what it stands for. -/
structure Replaceable (f : Unfolding) (a e : Ty) (members : List Ty) : Prop where
  respects : f.Respects
  /-- What it stands for is not named again, under its layers of null. -/
  unnamed : (f.meaning e).core.reference? = none
  /-- If it stands for a nullable type, then no member stands for null or for a nullable type. -/
  notNull : (f.meaning e).isNullable = true →
    ∀ m ∈ members, (f.meaning m).isNull = false ∧ (f.meaning m).isNullable = false
  /-- A member is compared with it by what they stand for, or is the same, or is accepted for what it stands for. -/
  compared : ∀ m ∈ members,
    Comparer.byName m e = true ∨ m.same e = true ∨ f.Accepts m (f.meaning e).core
  ends : f.EndsApart (members.map (·, e)) a e

/-- A member that is in `Accepts` for the named type is `Accepted` for what that stands for. -/
theorem Replaceable.accepted (h : f.Replaceable a e members) (haccepts : ∀ m ∈ members, f.Accepts m e)
    (hm : m ∈ members) :
    Accepted (σ := Unit) (refuseNamesakes (members.map (·, e))) f.resolver m (f.meaning e).core := by
  have hclosed := accepted_closed (f := f) (σ := Unit) (refuseNamesakes (members.map (·, e)))
  have hpairs : ∀ p ∈ members.map (·, e), f.Accepts p.1 p.2 := by simpa using haccepts
  have hunnamed := Ty.reference?_of_core h.unnamed
  rcases h.compared m hm with hname | hsame | haccepted
  · -- the null has to come off before the assumption of the pair is dropped
    obtain ⟨hx, -, hunder⟩ := (haccepts m hm).meanings hname (.inr hunnamed)
    have hcore : AcceptedUnder (σ := Unit) f.resolver [(m.text, e.text)] (f.meaning m) (f.meaning e).core := by
      cases hnullable : (f.meaning e).isNullable with
      | false => rwa [Ty.core_of_not_nullable hnullable]
      | true => exact hunder.core resolver_follows (h.notNull hnullable m hm).1 (h.notNull hnullable m hm).2
    refine hclosed.of_meaning hx h.unnamed (Ty.isNullable_core _) ?_
    exact accepted_of_assumed h.respects hpairs (List.mem_map_of_mem hm) hcore
  · have hmeanings := meaning_congr h.respects hsame
    have hnullable : (f.meaning e).isNullable = false := by
      by_contra hnullable
      simp only [Bool.not_eq_false] at hnullable
      have herase := congrArg Ty.isNullable ((Ty.same_iff_erase_eq _ _).mp hmeanings)
      simp [(h.notNull hnullable m hm).2, hnullable] at herase
    rw [Ty.core_of_not_nullable hnullable]
    refine hclosed.of_meaning ?_ hunnamed hnullable (hclosed.of_same hmeanings)
    exact reference?_eq_none_of_same hmeanings hunnamed
  · exact haccepted.accepted h.respects hpairs

/-- `Accepts` holds of a union and a named type that is `Replaceable`, if it does of the members. -/
theorem Replaceable.accepts (h : f.Replaceable a e members) (ha : a.shape = .union members) {r : Reference Ty}
    (he : e.reference? = some r) (haccepts : ∀ m ∈ members, f.Accepts m e) : f.Accepts a e := by
  have hclosed := accepted_closed (f := f) (σ := Unit) (refuseNamesakes (members.map (·, e)))
  have haname : a.reference? = none := by simp [Ty.reference?, ha]
  have hanull : a.isNullable = false := by simp [Ty.isNullable, ha]
  refine h.ends.accepts (hclosed a e ((rule_to_named_iff (Ty.reference?_eq_some.mp he)).mpr ?_))
  rw [ha]
  refine .inr (.inr ?_)
  rw [declared_of_unnamed haname]
  refine resolved_unnamed haname (Ty.reference?_of_core h.unnamed) (.inl rfl) (hclosed.of_core hanull ?_)
  refine hclosed.of_structural haname h.unnamed hanull (Ty.isNullable_core _) ?_
  rw [Structural, ha]
  exact fun m hm => h.accepted haccepts hm

/-- `Accepts` holds of a union if it does of its members. Where the type is nullable, members that are null or nullable
have to be accepted for its `core`, and where it is named, it has to be `Replaceable`. -/
theorem accepts_of_members (ha : a.shape = .union members) (haccepts : ∀ m ∈ members, f.Accepts m e)
    (hnull : e.isNullable = true → ∀ m ∈ members, m.isNull = true ∨ m.isNullable = true → f.Accepts m e.core)
    (hnamed : ∀ r, e.core.reference? = some r → f.Replaceable a e.core members) : f.Accepts a e := by
  have hcore : ∀ m ∈ members, f.Accepts m e.core := by
    intro m hm
    cases hnullable : e.isNullable with
    | false =>
      rw [Ty.core_of_not_nullable hnullable]
      exact haccepts m hm
    | true =>
      by_cases hm' : m.isNull = true ∨ m.isNullable = true
      · exact hnull hnullable m hm hm'
      · simp only [not_or, Bool.not_eq_true] at hm'
        exact (haccepts m hm).core hm'.1 hm'.2
  refine Accepts.of_core (by simp [Ty.isNullable, ha]) ?_
  cases href : e.core.reference? with
  | none => exact .of_members ha (Ty.isNullable_core e) href hcore
  | some r => exact (hnamed r href).accepts ha href hcore

end Unfolding

/-- Three names: `Size` stands for `u32?`, `Length` for `u32`, and `Step` for `u16`. -/
def sizes : Unfolding :=
  fun r => if r.name = "Size" then .nullable (.prim .u32) else if r.name = "Length" then .prim .u32 else .prim .u16

theorem sizes_respects : sizes.Respects := by
  intro r r' h
  have hname : r.name = r'.name := by
    simp only [Ty.same_eq, Ty.of, Shape.agree, Bool.and_eq_true, beq_iff_eq] at h
    exact h.1.2
  simp only [sizes, hname]
  exact Ty.same_refl _

theorem sizes_apart :
    let members : List Ty := [.prim .u8, .reference 2 "Step" []]
    let size : Ty := .nullable (.reference 0 "Size" [])
    (∀ m ∈ members, sizes.Accepts m size) ∧ sizes.Accepts (.union members) size := by
  intro members size
  have haccepts : ∀ m ∈ members, sizes.Accepts m size := by
    simp only [members, List.forall_mem_cons]
    exact ⟨⟨6, rfl⟩, ⟨6, rfl⟩, by simp⟩
  have hnull : ∀ m ∈ members, ¬ (m.isNull = true ∨ m.isNullable = true) := by decide +kernel
  refine ⟨haccepts, Unfolding.accepts_of_members rfl haccepts (fun _ m hm h => absurd h (hnull m hm)) fun r href => ?_⟩
  exact {
    respects := sizes_respects
    unnamed := rfl
    notNull := fun _ => by decide +kernel
    compared := fun m hm => .inl ((by decide +kernel : ∀ m ∈ members, Comparer.byName m size.core = true) m hm)
    ends := ⟨6, _, rfl⟩ }

/-- `compareUnresolved` refuses null in a union for a nullable type, and a name that stands for itself in a union for
itself, though either is accepted alone. -/
theorem nullMember_refused :
    ((∀ m ∈ [Ty.prim .null, .prim .u8], compareUnresolved m (.nullable (.prim .u8)) = .ok (.ok ())) ∧
      compareUnresolved (.union [.prim .null, .prim .u8]) (.nullable (.prim .u8)) =
        .ok (.error (.unlike (.prim .null) (.prim .u8)))) ∧
    let name : Ty := .reference 0 "X" []
    compareUnresolved name name = .ok (.ok ()) ∧
      compareUnresolved (.union [name]) name = .ok (.error (.unlike (.union [name]) name)) := by
  simp only [List.forall_mem_cons]
  exact ⟨⟨⟨rfl, rfl, by simp⟩, rfl⟩, rfl, rfl⟩

namespace Unfolding

variable {f : Unfolding}

/-! ## Finding a member of a union -/

/-- What a type comes down to before a union that it is compared with is looked at: the members of a union, the bound
of a generic parameter, and what a named type stands for. -/
inductive Alternative (f : Unfolding) : Ty → Ty → Prop where
  | self (t : Ty) : Alternative f t t
  | member {t m x : Ty} {members : List Ty} (ht : t.shape = .union members) (hm : m ∈ members)
    (hx : Alternative f m x) : Alternative f t x
  | bound {t bound x : Ty} {g : Generic Ty} (ht : t.shape = .generic g) (hbound : g.constraint = some bound)
    (hx : Alternative f bound x) : Alternative f t x
  | meaning {t x : Ty} {r : Reference Ty} (ht : t.shape = .ref r) (hx : Alternative f (f.meaning t) x) :
    Alternative f t x

/-- A type finds a member of a union that it is related to, unless it comes down to other types. A nullable type finds
none, nor does a generic parameter without a bound, nor a type that stands for a named one. -/
def Enters (f : Unfolding) (R : Ty → Ty → Prop) (members : List Ty) (x : Ty) : Prop :=
  match x.shape with
  | .nullable _ => False
  | .generic g => g.constraint.isSome = true
  | .ref _ => (f.meaning x).reference? = none
  | .union _ => True
  | _ => ∃ m ∈ members, R x m

theorem Enters.mono {R S : Ty → Ty → Prop} (hRS : ∀ y, R x y → S x y) (h : f.Enters R members x) :
    f.Enters S members x := by
  revert h
  unfold Enters
  split
  · exact id
  · exact id
  · exact id
  · exact id
  · rintro ⟨m, hm, h⟩
    exact ⟨m, hm, hRS m h⟩

/-- A type is `Accepted` for a union if every `Alternative` of it `Enters` a member. -/
theorem accepted_union {pairs : List (Ty × Ty)} (he : e.shape = .union members)
    (h : ∀ x, f.Alternative a x → f.Enters (Accepted (σ := Unit) (refuseNamesakes pairs) f.resolver) members x) :
    Accepted (σ := Unit) (refuseNamesakes pairs) f.resolver a e := by
  have hename : e.reference? = none := by simp [Ty.reference?, he]
  have henull : e.isNullable = false := by simp [Ty.isNullable, he]
  -- by induction on the depth, since a named union may come down to itself
  intro depth
  induction depth generalizing a with
  | zero => exact fun _ => .exhausted
  | succ depth ih =>
    intro assumed
    let R (x y : Ty) : Prop := ∀ assumed,
      (compareWatched (refuseNamesakes pairs) (f.resolver : Resolver Unit) depth assumed x y).Returns (·.holds = true)
    suffices hrule : Rule f R a e from compareWatched_step resolver_follows (fun x y hxy => hxy) hrule
    have ha := h a (.self a)
    unfold Enters at ha
    cases hshape : a.shape with
    | nullable base => simp [hshape] at ha
    | ref r =>
      rw [hshape] at ha
      have hmeaning : R (f.meaning a) e := ih fun x hx => h x (.meaning hshape hx)
      rw [rule_from_named_iff hshape, he]
      refine .inr (.inr ?_)
      rw [declared_of_unnamed hename]
      exact resolved_unnamed ha hename (.inr rfl) hmeaning
    | generic g =>
      rw [hshape] at ha
      obtain ⟨bound, hbound⟩ := Option.isSome_iff_exists.mp ha
      refine .of_structural (by simp [Ty.reference?, hshape]) hename (by simp [Ty.isNullable, hshape]) henull ?_
      rw [Structural, hshape]
      exact ⟨bound, hbound, ih fun x hx => h x (.bound hshape hbound hx)⟩
    | union alternatives =>
      refine .of_structural (by simp [Ty.reference?, hshape]) hename (by simp [Ty.isNullable, hshape]) henull ?_
      rw [Structural, hshape]
      exact fun m hm => ih fun x hx => h x (.member hshape hm hx)
    | _ =>
      rw [hshape] at ha
      obtain ⟨m, hm, haccepted⟩ := ha
      refine .of_structural (by simp [Ty.reference?, hshape]) hename (by simp [Ty.isNullable, hshape]) henull ?_
      rw [Structural, hshape, he]
      exact ⟨m, hm, haccepted depth⟩

end Unfolding

/-- Whether a type is compared with a union as it is. -/
def Ty.isPlain (t : Ty) : Bool :=
  match t.shape with
  | .nullable _ | .generic _ | .ref _ | .union _ => false
  | _ => true

theorem Ty.unnamed_of_isPlain {t : Ty} (h : t.isPlain = true) : t.reference? = none ∧ t.isNullable = false := by
  unfold isPlain at h
  split at h <;> simp_all [reference?, isNullable]

namespace Unfolding

variable {f : Unfolding}

/-- A type that `isPlain` has no other `Alternative`. -/
theorem Alternative.eq_of_isPlain (h : f.Alternative a x) (ha : a.isPlain = true) : x = a := by
  unfold Ty.isPlain at ha
  cases h with
  | self => rfl
  | member hshape _ _ => simp [hshape] at ha
  | bound hshape _ _ => simp [hshape] at ha
  | meaning hshape _ => simp [hshape] at ha

theorem enters_of_isPlain {R : Ty → Ty → Prop} (ha : a.isPlain = true) (hm : m ∈ members) (h : R a m) :
    f.Enters R members a := by
  unfold Ty.isPlain at ha
  unfold Enters
  split <;> simp_all
  exact ⟨m, hm, h⟩

/-- How a type `a` that is accepted for the member `m` of a union `e` is found to be accepted for the union. -/
inductive Introduction (f : Unfolding) (members : List Ty) (a m e : Ty) : Prop where
  /-- It is compared with the members as it is. -/
  | plain (ha : a.isPlain = true) (hends : f.EndsApart [] a e) : Introduction f members a m e
  /-- It is named and stands for a plain type. It is compared with the member by what they stand for, or is the same;
  and if the member is named, then so is what it stands for. -/
  | named {r : Reference Ty} (href : a.shape = .ref r) (ha : (f.meaning a).isPlain = true)
    (hname : Comparer.byName a m.core = true ∨ a.same m.core = true)
    (hmember : m.core.reference?.isSome = true → Comparer.byName (f.meaning a) m.core = true)
    (hends : f.EndsApart [(a, m.core)] a e) : Introduction f members a m e
  /-- Everything that it comes down to is accepted for some member. -/
  | alternatives (ha : ∀ x, f.Alternative a x → f.Enters f.Accepts members x) (hends : f.EndsApart [] a e) :
    Introduction f members a m e

/-- The `meaning` of a named type is `Accepted` for the member that the named type is accepted for. -/
theorem Accepts.of_meaning (hf : f.Respects) (ha : (f.meaning a).isPlain = true)
    (hname : Comparer.byName a m.core = true ∨ a.same m.core = true)
    (hmember : m.core.reference?.isSome = true → Comparer.byName (f.meaning a) m.core = true)
    (h : f.Accepts a m.core) :
    Accepted (σ := Unit) (refuseNamesakes [(a, m.core)]) f.resolver (f.meaning a) m := by
  have hclosed := accepted_closed (f := f) (σ := Unit) (refuseNamesakes [(a, m.core)])
  have hunnamed := Ty.unnamed_of_isPlain ha
  obtain ⟨hmeaning, haccepted⟩ : (f.meaning m.core).reference? = none ∧
      Accepted (σ := Unit) (refuseNamesakes [(a, m.core)]) f.resolver (f.meaning a) (f.meaning m.core) := by
    rcases hname with hname | hsame
    · obtain ⟨-, hmeaning, hunder⟩ := h.meanings hname (.inl hunnamed.1)
      exact ⟨hmeaning, accepted_of_assumed hf (by simpa using h) List.mem_cons_self hunder⟩
    · have hmeanings := meaning_congr hf hsame
      refine ⟨?_, hclosed.of_same hmeanings⟩
      have href := congrArg Ty.reference? ((Ty.same_iff_erase_eq _ _).mp hmeanings)
      simpa [hunnamed.1, eq_comm] using href
  refine hclosed.of_core hunnamed.2 ?_
  cases hcore : m.core.reference? with
  | none => rwa [meaning_of_unnamed hcore] at haccepted
  | some r' =>
    refine hclosed _ _ ((Comparer.rule_of_byName (hmember (by simp [hcore]))).mpr ?_)
    rw [declared_of_unnamed hunnamed.1]
    exact resolved_unnamed hunnamed.1 hmeaning (.inl rfl) haccepted

/-- `Accepts` holds of a type and a union that it is accepted for a member of, a member itself in particular. -/
theorem accepts_union (hf : f.Respects) (he : e.shape = .union members) (hm : m ∈ members) (h : f.Accepts a m)
    (hintroduction : f.Introduction members a m e) : f.Accepts a e := by
  cases hintroduction with
  | plain ha hends =>
    refine hends.accepts (accepted_union he fun x hx => ?_)
    rw [hx.eq_of_isPlain ha]
    exact enters_of_isPlain ha hm (h.accepted hf (by simp))
  | named href ha hname hmember hends =>
    refine hends.accepts (accepted_union he fun x hx => ?_)
    have hcore : f.Accepts a m.core :=
      h.core (by simp [Ty.isNull, Ty.isPrimitive, Ty.primitive?, href]) (by simp [Ty.isNullable, href])
    cases hx with
    | self => simpa [Enters, href] using (Ty.unnamed_of_isPlain ha).1
    | member hshape _ _ => simp [href] at hshape
    | bound hshape _ _ => simp [href] at hshape
    | meaning _ hx =>
      rw [hx.eq_of_isPlain ha]
      exact enters_of_isPlain ha hm (hcore.of_meaning hf ha hname hmember)
  | alternatives ha hends =>
    refine hends.accepts (accepted_union he fun x hx => ?_)
    exact (ha x hx).mono fun y hy => hy.accepted hf (by simp)

end Unfolding

theorem sizes_introduced :
    let length : Ty := .reference 1 "Length" []
    let members : List Ty := [.string, .nullable length]
    sizes.Accepts (.reference 2 "Step" []) (.nullable length) ∧
      sizes.Accepts (.reference 2 "Step" []) (.union members) := by
  intro length members
  have haccepts : sizes.Accepts (.reference 2 "Step" []) (.nullable length) := ⟨6, rfl⟩
  refine ⟨haccepts, Unfolding.accepts_union sizes_respects rfl (by simp [members]) haccepts ?_⟩
  exact .named rfl rfl (.inl rfl) (fun _ => rfl) ⟨6, _, rfl⟩

/-- `compareUnresolved` refuses a generic parameter, a nullable type and a name that stands for itself for a union that
they are a member of. -/
theorem ownMember_refused :
    let own : List Ty := [.of (.generic ⟨"T", none⟩), .nullable (.prim .u8), .reference 0 "X" []]
    ∀ t ∈ own, compareUnresolved t t = .ok (.ok ()) ∧
      ∃ why, compareUnresolved t (.union [t, .string]) = .ok (.error why) := by
  simp only [List.forall_mem_cons]
  exact ⟨⟨rfl, _, rfl⟩, ⟨rfl, _, rfl⟩, ⟨rfl, _, rfl⟩, by simp⟩

end Ascribe
