import Ascribe.Proofs.Typing.Ensures.Questions

/-!
# The types of expressions

The rules of expressions look at the nodes an expression is made of and at what names in it point at, all of which are
in scope if they are in the tree. So the types that they give are in scope if the answers to their questions are, and in
a well-formed tree they give one as soon as their questions are answered.

## Key results

- `Typing.instanceMember_ensures`: a member of a value is found
- `Typing.memberType_ensures`, `Typing.indexType_ensures`, `Typing.callType_ensures`, `Typing.newType_ensures`: accesses
  and applications are given a type
-/

namespace Ascribe

variable {p : Tree} {q : Queries} {total : Prop} {scope : Scope} {I : Checker → Prop}

namespace Typing

/-! ## Literals and names -/

section Literals

theorem readInteger_isPlaceholder {text : String} {problem : Problem} (h : Literal.readInteger text = .error problem) :
    problem.isPlaceholder = false := by
  unfold Literal.readInteger at h
  split at h
  · cases h
    rfl
  · split at h
    · split at h
      · cases h
      · cases h
        rfl
    · cases h

theorem readDecimal_isPlaceholder {text : String} {problem : Problem} (h : Literal.readDecimal text = .error problem) :
    problem.isPlaceholder = false := by
  unfold Literal.readDecimal at h
  dsimp only at h
  split at h
  · cases h
  · cases h
    rfl

variable (h : q.Ensures total scope I)

include h

theorem expectedNumber_ensures {node : NodeId} (hnode : scope.node node = true) :
    (expectedNumber q node).Ensures total I fun _ => True :=
  .bind (h.expectedResolved hnode) fun _ _ => .pure trivial

theorem intType_ensures {node : NodeId} (hnode : scope.node node = true) (text : String) :
    (intType p q node text).Ensures total I (Ty.InScope scope) := by
  unfold intType
  split
  · next problem hread => exact .pure (Ty.error_inScope (readInteger_isPlaceholder hread))
  · split
    · exact .pure (Ty.prim_inScope _)
    · refine .bind (Infer.settings_ensures) fun settings _ => ?_
      refine .bind (expectedNumber_ensures h hnode) fun kind _ => ?_
      cases kind with
      | none => exact .pure (Ty.prim_inScope _)
      | some kind => exact .pure (Ty.prim_inScope _)

theorem floatType_ensures {node : NodeId} (hnode : scope.node node = true) (text : String) :
    (floatType q node text).Ensures total I (Ty.InScope scope) := by
  unfold floatType
  split
  · next problem hread => exact .pure (Ty.error_inScope (readDecimal_isPlaceholder hread))
  · exact .pure (Ty.prim_inScope _)
  · refine .bind (Infer.settings_ensures) fun settings _ => ?_
    exact .bind (expectedNumber_ensures h hnode) fun _ _ => .pure (Ty.prim_inScope _)

theorem arrayType_ensures {node : NodeId} (hnode : scope.node node = true) {elems : List NodeId}
    (helems : ∀ n ∈ elems, scope.node n = true) : (arrayType q node elems).Ensures total I (Ty.InScope scope) := by
  unfold arrayType
  split
  · refine .bind (h.expectedResolved hnode) fun t ht => ?_
    split
    · next elem helem =>
      obtain ⟨t, rfl, hshape⟩ := Option.map_eq_some_iff.mp helem
      exact .pure (by simpa [Ty.array] using Shape.inScope_array.mp ((ht t rfl).shape hshape))
    · exact .pure (Ty.inScope_of.mpr (Shape.inScope_array.mpr (Ty.prim_inScope .never)))
  · refine .bind (h.typesOf helems) fun types htypes => .bind (h.commonType htypes) fun t ht => .pure ?_
    split
    · exact ht
    · simpa [Ty.array] using ht

theorem literalFields_ensures {fields : List NodeId} (hfields : ∀ n ∈ fields, scope.node n = true) :
    (literalFields p q fields).Ensures total I fun found =>
      match found with
      | .ok fields => ∀ f ∈ fields, f.type.InScope scope
      | .error t => t.InScope scope := by
  induction fields with
  | nil => exact .pure (by simp)
  | cons node rest ih =>
    rw [List.forall_mem_cons] at hfields
    simp only [literalFields]
    split
    · refine .bind (h.typeOf hfields.1) fun type htype => ?_
      split
      · exact .pure htype
      · refine .bind (ih hfields.2) fun found hfound => .pure ?_
        cases found with
        | ok fields => exact List.forall_mem_cons.mpr ⟨htype, hfound⟩
        | error t => exact hfound
    · exact ih hfields.2

theorem structType_ensures {fields : List NodeId} (hfields : ∀ n ∈ fields, scope.node n = true) :
    (structType p q fields).Ensures total I (Ty.InScope scope) := by
  refine .bind (literalFields_ensures h hfields) fun found hfound => ?_
  cases found with
  | ok fields => exact .pure (by simpa [Ty.struct] using hfound)
  | error openType => exact .pure hfound

variable (hp : p.InScope total scope)

include hp

theorem nameType_ensures {n : NameForm} (htarget : ∀ target ∈ n.target, scope.node target = true) :
    (nameType p q n).Ensures total I (Ty.InScope scope) := by
  unfold nameType
  split
  · exact .pure (Ty.error_inScope rfl)
  · next target hbound =>
    have hlt : scope.node target = true := htarget target hbound
    refine .bind (hp.form hlt) fun form _ => ?_
    split
    · exact .pure (by simpa [Ty.reference] using hlt)
    · exact .pure (Ty.error_inScope rfl)
    · exact .pure (Ty.error_inScope rfl)
    · exact h.typeOf hlt

theorem referenceType_ensures {n : NameForm} (htarget : ∀ target ∈ n.target, scope.node target = true)
    {args : List NodeId}
    (hargs : ∀ n ∈ args, scope.node n = true) : (referenceType p q n args).Ensures total I (Ty.InScope scope) := by
  unfold referenceType
  split
  · exact .pure (Ty.error_inScope rfl)
  · next target hbound =>
    have hlt : scope.node target = true := htarget target hbound
    refine .bind (hp.form hlt) fun form _ => ?_
    split
    · exact .bind (h.typesOf hargs) fun types htypes => .pure (by simpa [Ty.reference] using ⟨hlt, htypes⟩)
    · split
      · exact h.typeOf hlt
      · exact .pure (Ty.error_inScope rfl)
    · exact .pure (Ty.error_inScope rfl)

theorem thisType_ensures {node : NodeId} (hnode : scope.node node = true) :
    (thisType p q node).Ensures total I (Ty.InScope scope) := by
  refine .bind (hp.nearest _ hnode) fun cls _ => ?_
  split
  · next decl hdecl =>
    split
    · next d hform =>
      have hgenerics : ∀ n ∈ d.generics, scope.node n = true :=
        fun n hn => hp.child hform n (by simp [Form.children, hn])
      refine .bind (h.typesOf hgenerics) fun types htypes => .pure ?_
      simpa [Ty.reference] using ⟨hp.here hform, htypes⟩
    · exact .pure (Ty.error_inScope rfl)
  · exact .pure (Ty.error_inScope rfl)

end Literals

/-! ## Operators and access -/

section Access

variable (h : q.Ensures total scope I)

theorem builtInBinary_inScope (op : BinaryOp) (l r : Ty) : ∀ t ∈ builtInBinary op l r, t.InScope scope := by
  intro t ht
  -- whatever the operator, the result is a primitive type
  have hprim : ∃ kind, t = .prim kind := by
    simp only [builtInBinary] at ht
    split at ht
    · split at ht <;> exact ⟨_, (Option.some.inj ht).symm⟩
    · split at ht
      · split at ht
        · exact ⟨_, (Option.some.inj ht).symm⟩
        · cases ht
      · split at ht
        · exact ⟨_, (Option.some.inj ht).symm⟩
        · split at ht
          · split at ht
            · cases ht
            · split at ht
              · exact ⟨_, (Option.some.inj ht).symm⟩
              · obtain ⟨kind, -, rfl⟩ := Option.map_eq_some_iff.mp ht
                exact ⟨kind, rfl⟩
          · cases ht
  obtain ⟨kind, rfl⟩ := hprim
  exact Ty.prim_inScope kind

theorem classMember?_inScope {body : ClassBody Ty} (hbody : (Shape.cls body).InScope scope) (name : String) :
    ∀ t ∈ classMember? body name, t.InScope scope := by
  obtain ⟨hattributes, hmethods, -, -⟩ := Shape.inScope_cls.mp hbody
  intro t ht
  unfold classMember? at ht
  split at ht
  · next a ha => exact Option.some.inj ht ▸ hattributes a (List.mem_of_find?_eq_some ha)
  · obtain ⟨m, hm, rfl⟩ := Option.map_eq_some_iff.mp ht
    have hmethod := hmethods m (List.mem_of_find?_eq_some hm)
    exact Ty.InScope.withOrigin? (by simpa [Ty.function] using hmethod.signature) hmethod.origin

include h

theorem operatorMethod_ensures {t : Ty} (ht : t.InScope scope) (symbol : String) (arity : Nat) :
    (operatorMethod q t symbol arity).Ensures total I fun found => ∀ s ∈ found, s.InScope scope := by
  refine .bind (h.resolveDeep ht) fun target htarget => ?_
  split
  · next body hbody =>
    refine .pure fun s hs => ?_
    obtain ⟨m, hm, rfl⟩ := Option.map_eq_some_iff.mp hs
    exact ((Shape.inScope_cls.mp (htarget.shape hbody)).2.1 m (List.mem_of_find?_eq_some hm)).signature
  · exact .pure (by simp)

theorem binaryType_ensures (op : BinaryOp) {lhs rhs : NodeId} (hlhs : scope.node lhs = true)
    (hrhs : scope.node rhs = true) :
    (binaryType q op lhs rhs).Ensures total I (Ty.InScope scope) := by
  refine .bind (h.typeOf hlhs) fun l hl => .bind (h.typeOf hrhs) fun r hr => ?_
  have hoperands : ∀ t ∈ [l, r], t.InScope scope := by simp [hl, hr]
  have hlogical : Search.Ensures total I
      (do
        let a ← q.resolveDeep l
        let b ← q.resolveDeep r
        return if a.isPrimitive .bool && b.isPrimitive .bool then .bool else invalidOperands op l r)
      (Ty.InScope scope) := by
    refine .bind (h.resolveDeep hl) fun a _ => .bind (h.resolveDeep hr) fun b _ => .pure ?_
    split
    · exact Ty.prim_inScope .bool
    · exact Ty.error_inScope rfl
  split
  · next failed hfailed =>
    refine .pure (hoperands failed ?_)
    rcases Option.or_eq_some_iff.mp hfailed with hfound | ⟨-, hfound⟩
    · exact List.mem_of_find?_eq_some hfound
    · exact List.mem_of_find?_eq_some hfound
  · split
    · exact hlogical
    · exact hlogical
    · exact h.commonType (by simp [hl.stripNullable, hr])
    · exact .pure (Ty.prim_inScope .bool)
    · exact .pure (Ty.prim_inScope .bool)
    · refine .bind (operatorMethod_ensures h hl _ _) fun method hmethod => ?_
      split
      · next s => exact .pure (hmethod s rfl).result
      · refine .bind (h.resolveDeep hl) fun a _ => .bind (h.resolveDeep hr) fun b _ => .pure ?_
        exact Ty.getD_inScope (builtInBinary_inScope op a b) (Ty.error_inScope rfl)

theorem unaryType_ensures (op : UnaryOp) {operand : NodeId} (hoperand : scope.node operand = true) :
    (unaryType q op operand).Ensures total I (Ty.InScope scope) := by
  refine .bind (h.typeOf hoperand) fun t ht => ?_
  split
  · exact .pure ht
  · refine .bind (operatorMethod_ensures h ht _ _) fun method hmethod => ?_
    split
    · next s => exact .pure (hmethod s rfl).result
    · refine .bind (h.resolveDeep ht) fun resolved _ => ?_
      split
      · exact .pure (Ty.prim_inScope .any)
      · refine .pure ?_
        split
        · exact ht
        · exact Ty.error_inScope rfl

theorem memberOfAll_ensures (name : String) {types : List Ty} (htypes : ∀ t ∈ types, t.InScope scope) :
    (memberOfAll q name types).Ensures total I fun found => ∀ ts ∈ found, ∀ t ∈ ts, t.InScope scope := by
  induction types with
  | nil => exact .pure (by simp)
  | cons t rest ih =>
    rw [List.forall_mem_cons] at htypes
    refine .bind (h.member htypes.1) fun found hfound => ?_
    split
    · exact .pure (by simp)
    · refine .bind (ih htypes.2) fun others hothers => .pure fun ts hts => ?_
      obtain ⟨ts, hmem, rfl⟩ := Option.map_eq_some_iff.mp hts
      exact List.forall_mem_cons.mpr ⟨hfound, hothers ts hmem⟩

theorem memberOfSome_ensures (name : String) {types : List Ty} (htypes : ∀ t ∈ types, t.InScope scope) :
    (memberOfSome q name types).Ensures total I fun found => ∀ t ∈ found, t.InScope scope := by
  induction types with
  | nil => exact .pure (by simp)
  | cons t rest ih =>
    rw [List.forall_mem_cons] at htypes
    refine .bind (h.member htypes.1) fun found hfound => ?_
    split
    · exact ih htypes.2
    · exact .pure (by simpa using hfound)

/-- `instanceMember` gives a type that is `InScope`. -/
theorem instanceMember_ensures {t : Ty} (ht : t.InScope scope) (name : String) :
    (instanceMember q t name).Ensures total I (Ty.InScope scope) := by
  have hfallback {found : Option Ty} (hfound : ∀ u ∈ found, u.InScope scope) :
      (found.getD (memberNotFound name t)).InScope scope :=
    Ty.getD_inScope hfound (Ty.error_inScope rfl)
  refine .bind (h.resolveDeep ht) fun resolved hresolved => ?_
  split
  case h_1 elem hshape =>
    exact .pure (hfallback (Prototype.member?_inScope (Shape.inScope_array.mp (hresolved.shape hshape))))
  case h_2 s hshape =>
    exact .pure (hfallback (Prototype.member?_inScope (Shape.inScope_coroutine.mp (hresolved.shape hshape)).result))
  case h_3 body hshape =>
    refine .pure (hfallback fun u hu => ?_)
    obtain ⟨field, hfield, rfl⟩ := Option.map_eq_some_iff.mp hu
    exact Shape.inScope_struct.mp (hresolved.shape hshape) field (List.mem_of_find?_eq_some hfield)
  case h_4 c hshape =>
    refine .pure (hfallback fun u hu => ?_)
    obtain ⟨field, hfield, rfl⟩ := Option.map_eq_some_iff.mp hu
    exact (Shape.inScope_constructed.mp (hresolved.shape hshape)).2.2.2 field (List.mem_of_find?_eq_some hfield)
  case h_5 body hshape => exact .pure (hfallback (classMember?_inScope (hresolved.shape hshape) name))
  case h_6 body hshape =>
    refine .bind (h.interfaceMethods (hresolved.shape hshape)) fun methods hmethods => .pure (hfallback fun u hu => ?_)
    obtain ⟨m, hm, rfl⟩ := Option.map_eq_some_iff.mp hu
    have hmethod := hmethods m (List.mem_of_find?_eq_some hm)
    exact Ty.InScope.withOrigin? (by simpa [Ty.function] using hmethod.signature) hmethod.origin
  case h_7 members hshape =>
    refine .bind (memberOfSome_ensures h name (Shape.inScope_join.mp (hresolved.shape hshape))) fun found hfound => ?_
    exact .pure (hfallback hfound)
  case h_8 members hshape =>
    refine .bind (memberOfAll_ensures h name (Shape.inScope_union.mp (hresolved.shape hshape))) fun found hfound => ?_
    split
    · next types => exact h.commonType (hfound types rfl)
    · exact .pure (Ty.error_inScope rfl)
  case h_9 g hshape =>
    split
    · next bound hbound => exact h.member (Shape.inScope_generic.mp (hresolved.shape hshape) bound hbound)
    · exact .pure (Ty.error_inScope rfl)
  case h_10 => exact .pure (Ty.prim_inScope .any)
  case h_11 =>
    refine .pure ?_
    split
    · exact Ty.prim_inScope .u64
    · exact Ty.error_inScope rfl
  case h_12 => exact .pure hresolved
  case h_13 => exact .pure (Ty.error_inScope rfl)

theorem staticConstructor_ensures {constructor : NodeId} (hconstructor : scope.node constructor = true)
    (generics : List NodeId) :
    (staticConstructor p q constructor generics).Ensures total I (Ty.InScope scope) := by
  refine .bind (h.typeOf hconstructor) fun t ht => ?_
  split
  · next c hshape =>
    dsimp only
    split
    · exact .pure ht
    · have hnever : ∀ u ∈ (p.genericNames generics).map fun _ => Ty.never, u.InScope scope := by
        intro u hu
        obtain ⟨name, -, rfl⟩ := List.mem_map.mp hu
        exact Ty.prim_inScope .never
      obtain ⟨hdecl, hvariant, -, -⟩ := Shape.inScope_constructed.mp (ht.shape hshape)
      refine .pure (Ty.inScope_of.mpr (Shape.inScope_constructed.mpr ⟨hdecl, ?_, hnever, by simp⟩))
      exact hvariant.substitute (Bindings.zip_inScope _ hnever)
  · exact .pure ht

variable (hp : p.InScope total scope)

include hp

theorem declaredMember_ensures {decl : NodeId} {d : TypeDeclForm} (hdecl : p.form? decl = some (.typeDecl d))
    (name : String) :
    (declaredMember p q decl d name).Ensures total I fun t => ∀ u ∈ t, u.InScope scope := by
  have howner : (Ty.reference decl d.name []).InScope scope := by
    simpa [Ty.reference] using hp.here hdecl
  have hnotFound {t : Ty} : ∀ u ∈ some (memberNotFound name t), u.InScope scope :=
    fun u hu => Option.mem_some.mp hu ▸ Ty.error_inScope rfl
  unfold declaredMember
  dsimp only
  split
  · next constructors hform =>
    split
    · next c hc =>
      have hlt := hp.child hform c (List.mem_of_find?_eq_some hc)
      exact .bind (staticConstructor_ensures h hlt _) fun t ht => .pure (by simpa using ht)
    · exact .pure hnotFound
  · refine .pure ?_
    split
    · simpa using howner
    · exact hnotFound
  · refine .pure ?_
    split
    · simpa using howner
    · exact hnotFound
  · split
    · next node hnode =>
      exact .bind (h.typeOf (hp.classMember node hnode)) fun t ht => .pure (by simpa using ht)
    · exact .pure hnotFound
  · exact .pure (by simp)

theorem staticMember_ensures (m : MemberForm) :
    (staticMember p q m).Ensures total I fun t => ∀ u ∈ t, u.InScope scope := by
  unfold staticMember
  split
  · next n hform =>
    split
    · exact .pure (by simp)
    · next decl hbound =>
      refine .bind (hp.form (hp.bound hform hbound)) fun form hdecl => ?_
      split
      · exact declaredMember_ensures h hp hdecl _
      · exact .pure (by simp)
  · exact .pure (by simp)

theorem thisMember_ensures (m : MemberForm) :
    (thisMember p q m).Ensures total I fun t => ∀ u ∈ t, u.InScope scope := by
  unfold thisMember
  split
  · next hform =>
    refine .bind (hp.nearest _ (hp.here hform)) fun cls _ => ?_
    split
    · exact .pure (by simp)
    · exact h.typeOf? hp.classMember
  · exact .pure (by simp)

omit h in
theorem accessIsOptional_ensures (base : NodeId) (isOptional : Bool) :
    (accessIsOptional p base isOptional).Ensures total I fun _ => True := by
  unfold accessIsOptional
  split
  · exact .pure trivial
  · exact hp.inOptionalChain base

theorem valueMember_ensures {m : MemberForm} (hbase : scope.node m.base = true) :
    (valueMember p q m).Ensures total I (Ty.InScope scope) := by
  refine .bind (h.typeOf hbase) fun base ht => ?_
  split
  · exact .pure ht
  · refine .bind (h.resolveDeep ht) fun target htarget => ?_
    split
    · refine .bind (accessIsOptional_ensures hp m.base m.optional) fun isOptional _ => ?_
      split
      · refine .bind (h.member htarget.stripNullable) fun found hfound => .pure ?_
        split
        · exact hfound
        · exact hfound.nullable.withOrigin? hfound.origin
      · exact .pure (Ty.error_inScope rfl)
    · exact h.member htarget

theorem memberType_ensures {m : MemberForm} (hbase : scope.node m.base = true) :
    (memberType p q m).Ensures total I (Ty.InScope scope) := by
  refine .bind (staticMember_ensures h hp m) fun found hfound => ?_
  split
  · next t => exact .pure (hfound t rfl)
  · refine .bind (thisMember_ensures h hp m) fun found hfound => ?_
    split
    · next t => exact .pure (hfound t rfl)
    · exact valueMember_ensures h hp hbase

omit hp in
theorem elementType_ensures (base : Ty) {target : Ty} (htarget : target.InScope scope) (index : NodeId) {position : Ty}
    (hposition : position.InScope scope) :
    (elementType p q base target index position).Ensures total I (Ty.InScope scope) := by
  unfold elementType
  split
  · next elem hshape =>
    refine .bind (h.resolveDeep hposition) fun resolved _ => .pure ?_
    split
    · exact Shape.inScope_array.mp (htarget.shape hshape)
    · exact Ty.error_inScope rfl
  · next elems hshape =>
    refine .pure ?_
    unfold tupleElement
    split
    · split
      · refine Ty.getD_inScope (fun t ht => ?_) (Ty.error_inScope rfl)
        exact Shape.inScope_tuple.mp (htarget.shape hshape) t (List.mem_of_getElem? ht)
      · exact Ty.error_inScope rfl
    · exact Ty.error_inScope rfl
  · exact .pure (Ty.prim_inScope .string)
  · exact .pure (Ty.prim_inScope .any)
  · refine .bind (operatorMethod_ensures h htarget _ _) fun method hmethod => ?_
    split
    · next s => exact .pure (hmethod s rfl).result
    · exact .pure (Ty.error_inScope rfl)
  · exact .pure (Ty.error_inScope rfl)

theorem indexType_ensures {i : IndexForm} (hbase : scope.node i.base = true) (hindex : scope.node i.index = true) :
    (indexType p q i).Ensures total I (Ty.InScope scope) := by
  refine .bind (h.typeOf hbase) fun base ht => ?_
  split
  · exact .pure ht
  · refine .bind (h.typeOf hindex) fun position hposition => ?_
    split
    · exact .pure hposition
    · refine .bind (h.resolveDeep ht) fun target htarget => ?_
      split
      · refine .bind (accessIsOptional_ensures hp i.base i.optional) fun isOptional _ => ?_
        split
        · refine .bind (h.resolveDeep htarget.stripNullable) fun stripped hstripped => ?_
          refine .bind (elementType_ensures h base hstripped i.index hposition) fun found hfound => .pure ?_
          split
          · exact hfound
          · exact hfound.nullable
        · exact .pure (Ty.error_inScope rfl)
      · exact elementType_ensures h base htarget i.index hposition

end Access

/-! ## Application -/

section Application

variable (hp : p.InScope total scope)

include hp

theorem variantGenerics_ensures {decl : Option NodeId} (hdecl : ∀ id ∈ decl, scope.node id = true) :
    (variantGenerics p decl).Ensures total I fun _ => True := by
  unfold variantGenerics
  split
  · exact .pure trivial
  · next id =>
    refine .bind (hp.form (hdecl id rfl)) fun form _ => ?_
    split
    · exact .pure trivial
    · exact .pure trivial

theorem construct_ensures {c : Constructed Ty} (hc : (Shape.constructed c).InScope scope) {args : List Ty}
    (hargs : ∀ t ∈ args, t.InScope scope) : (construct p c args).Ensures total I (Ty.InScope scope) := by
  obtain ⟨hdecl, hvariant, -, hparams⟩ := Shape.inScope_constructed.mp hc
  unfold construct
  split
  · exact .pure (Ty.inScope_of.mpr hc)
  · refine .bind (variantGenerics_ensures hp hdecl) fun names _ => ?_
    split
    · exact .pure (Ty.inScope_of.mpr hc)
    · have hsolved := Bindings.solveGenerics_inScope names (c.params.map (·.type)) hargs
      refine .pure (Ty.inScope_of.mpr (Shape.inScope_constructed.mpr ⟨hdecl, hvariant.substitute hsolved, hsolved, ?_⟩))
      intro f hf
      obtain ⟨param, hparam, rfl⟩ := List.mem_map.mp hf
      exact (hparams param hparam).substitute hsolved

/-- `namedClass?` gives a declaration with the arguments that the type names, which are `InScope`. -/
theorem namedClass?_ensures {t : Ty} (ht : t.InScope scope) :
    (namedClass? p t).Ensures total I fun found => ∀ rd ∈ found,
      (Shape.ref rd.1).InScope scope ∧ p.form? rd.1.decl = some (.typeDecl rd.2) := by
  unfold namedClass?
  split
  · exact .pure (by simp)
  · next r hr =>
    have href := ht.shape (Ty.reference?_eq_some.mp hr)
    refine .bind (hp.form (Shape.inScope_ref.mp href).1) fun form hform => ?_
    split
    · split
      · exact .pure fun rd hrd => Option.mem_some.mp hrd ▸ ⟨href, hform⟩
      · exact .pure (by simp)
    · exact .pure (by simp)

variable (h : q.Ensures total scope I) (hI : Checker.Logging scope I)

include h

omit hp in
theorem callBindings_ensures (calleeType : Ty) (s : Signature Ty) {c : CallForm}
    (hgenerics : ∀ n ∈ c.generics, scope.node n = true) {args : List Ty} (hargs : ∀ t ∈ args, t.InScope scope) :
    (callBindings q calleeType s c args).Ensures total I fun found =>
      match found with
      | .ok bindings => bindings.InScope scope
      | .error problem => problem.isPlaceholder = false := by
  unfold callBindings
  dsimp only
  split
  · split
    · exact .pure rfl
    · exact .bind (h.typesOf hgenerics) fun types htypes => .pure (Bindings.zip_inScope _ htypes)
  · split
    · exact .pure fun t ht => absurd ht List.not_mem_nil
    · exact .pure (Bindings.solveGenerics_inScope _ _ hargs)

include hI

theorem logCall_ensures {calleeType : Ty} (htype : calleeType.InScope scope) (callee : NodeId) {bindings : Bindings}
    (hbindings : bindings.InScope scope) :
    (logCall p q calleeType callee bindings).Ensures total I fun _ => True := by
  refine .bind (Infer.settings_ensures) fun settings _ => ?_
  split
  · exact .pure trivial
  · split
    · exact .pure trivial
    · next decl hdecl =>
      refine .bind (hp.form (htype.origin decl hdecl)) fun form _ => ?_
      split
      · exact Infer.discard_ensures (Infer.logFunction_ensures hI _ _ hbindings)
      · split
        · next access hform =>
          refine .bind (h.typeOf (hp.child hform access.base (by simp [Form.children]))) fun owner howner => ?_
          split
          · next r hr =>
            have href := howner.stripNullable.shape (Ty.reference?_eq_some.mp hr)
            refine .bind (Infer.logClass_ensures hI _ _ (Shape.inScope_ref.mp href).2) fun key _ => ?_
            exact Infer.discard_ensures (Infer.logMethod_ensures hI _ _ _ hbindings)
          · exact .pure trivial
        · exact .pure trivial
      · exact .pure trivial

theorem callFunction_ensures {calleeType : Ty} (htype : calleeType.InScope scope) {s : Signature Ty}
    (hs : s.InScope scope) {c : CallForm} (hgenerics : ∀ n ∈ c.generics, scope.node n = true) {args : List Ty}
    (hargs : ∀ t ∈ args, t.InScope scope) :
    (callFunction p q calleeType s c args).Ensures total I (Ty.InScope scope) := by
  refine .bind (callBindings_ensures h calleeType s hgenerics hargs) fun found hfound => ?_
  cases found with
  | error problem => exact .pure (Ty.error_inScope hfound)
  | ok bindings =>
    refine .bind (logCall_ensures hp h hI htype _ hfound) fun _ _ => .pure ?_
    exact hs.instantiate_result hfound

theorem callType_ensures {c : CallForm} (hcallee : scope.node c.callee = true)
    (hgenerics : ∀ n ∈ c.generics, scope.node n = true)
    (hargs : ∀ n ∈ c.args, scope.node n = true) : (callType p q c).Ensures total I (Ty.InScope scope) := by
  refine .bind (h.typeOf hcallee) fun calleeType htype => ?_
  split
  · exact .pure htype
  · refine .bind (h.resolveDeep htype) fun direct hdirect => ?_
    refine .iteBind (fun _ => hp.inOptionalChain c.callee) (fun _ => .pure trivial) fun isOptional _ => ?_
    refine .iteBind (fun _ => h.resolveDeep hdirect.stripNullable) (fun _ => .pure hdirect) fun callee hcallee => ?_
    refine .bind (h.typesOf hargs) fun args hargs => ?_
    have hlast {t : Ty} (ht : t.InScope scope) :
        (if (isOptional && !t.isError) = true then t.nullable else t).InScope scope := by
      split
      · exact ht.nullable
      · exact ht
    dsimp only
    split
    · next s hs =>
      refine .bind (callFunction_ensures hp h hI htype (Shape.inScope_fn.mp (hcallee.shape hs)) hgenerics hargs) ?_
      exact fun t ht => .pure (hlast ht)
    · next s hs =>
      exact .bind (.pure (Shape.inScope_coroutine.mp (hcallee.shape hs)).result) fun t ht => .pure (hlast ht)
    · next ctor hctor =>
      exact .bind (construct_ensures hp (hcallee.shape hctor) hargs) fun t ht => .pure (hlast ht)
    · exact .bind (.pure (Ty.prim_inScope .any)) fun t ht => .pure (hlast ht)
    · exact .bind (.pure (Ty.error_inScope rfl)) fun t ht => .pure (hlast ht)

omit hI in
theorem initParams_ensures (cls : NodeId) :
    (initParams p q cls).Ensures total I fun _ => True := by
  unfold initParams
  split
  · next init hinit => exact .bind (h.signatureOf (hp.classMember init hinit)) fun _ _ => .pure trivial
  · exact .pure trivial

theorem newType_ensures {cls : NodeId} (hcls : scope.node cls = true) {args : List NodeId}
    (hargs : ∀ n ∈ args, scope.node n = true) :
    (newType p q cls args).Ensures total I (Ty.InScope scope) := by
  refine .bind (h.typeOf hcls) fun named hnamed => ?_
  split
  · exact .pure hnamed
  · refine .bind (namedClass?_ensures hp hnamed) fun found hfound => ?_
    split
    · exact .pure (Ty.error_inScope rfl)
    · next r d =>
      obtain ⟨href, -⟩ := hfound (r, d) rfl
      obtain ⟨hdecl, hrefArgs⟩ := Shape.inScope_ref.mp href
      -- the instantiation is logged whether its arguments are written or solved
      have hlog {classArgs : List Ty} (hclassArgs : ∀ t ∈ classArgs, t.InScope scope) : Search.Ensures total I
          (do
            if (← Infer.settings).logInstantiations then
              discard (Infer.logClass r.decl d.name classArgs)
            return Ty.reference r.decl d.name classArgs) (Ty.InScope scope) := by
        have hreference : (Ty.reference r.decl d.name classArgs).InScope scope := by
          simpa [Ty.reference] using ⟨hdecl, hclassArgs⟩
        refine .bind (Infer.settings_ensures) fun settings _ => ?_
        dsimp only
        split
        · refine .bind (Infer.discard_ensures (Infer.logClass_ensures hI _ _ hclassArgs)) fun _ _ => ?_
          exact .pure hreference
        · exact .pure hreference
      dsimp only
      split
      · refine .bind (initParams_ensures hp h _) fun params _ => .bind (h.typesOf hargs) fun types htypes => ?_
        exact .bind (.pure (Bindings.solveGenerics_inScope _ params htypes)) fun _ => hlog
      · exact .bind (.pure hrefArgs) fun _ => hlog

end Application

end Typing

end Ascribe
