import Ascribe.Proofs.Typing.Ensures.Expressions

/-!
# The types that rules give

A typing rule looks at nodes of the tree and asks questions. A node that it looks at is a child, an owner or the target
of a name, or a type points at it. So the type that a rule gives is in scope if the answers to its questions are, and if
the tree is well-formed a rule gives a type as soon as its questions are answered.

## Key results

- `Typing.ruleFor_ensures`: the rule of every form gives a type in scope
- `Typing.expand_ensures`: what a named type stands for is in scope
-/

namespace Ascribe

variable {p : Tree} {q : Queries} {total : Prop} {scope : Scope} {I : Checker → Prop}

namespace Typing

/-! ## Signatures and types as written -/

section Declarations

theorem error_of_bind {α β : Type} {x : Except Problem α} {f : α → Except Problem β} {problem : Problem}
    (h : x >>= f = .error problem) : x = .error problem ∨ ∃ v, f v = .error problem := by
  cases x with
  | error other =>
    obtain rfl := Except.error.inj h
    exact .inl rfl
  | ok v => exact .inr ⟨v, h⟩

theorem enumValue_isPlaceholder {text : String} {problem : Problem} (h : enumCases.enumValue text = .error problem) :
    problem.isPlaceholder = false := by
  rcases error_of_bind h with hread | ⟨literal, h⟩
  · exact readInteger_isPlaceholder hread
  · split at h
    · cases h
    · cases h
      rfl

/-- `enumCases` refuses an enumeration for a value that cannot be read, and not for the time being. -/
theorem enumCases_isPlaceholder {nodes : List NodeId} {problem : Problem} (h : enumCases p nodes = .error problem) :
    problem.isPlaceholder = false := by
  induction nodes with
  | nil => cases h
  | cons node rest ih =>
    simp only [enumCases] at h
    split at h
    · next name value hform =>
      rcases error_of_bind h with hvalue | ⟨_, h⟩
      · cases value with
        | none => cases hvalue
        | some text =>
          rcases error_of_bind hvalue with hread | ⟨_, hread⟩
          · exact enumValue_isPlaceholder hread
          · cases hread
      · rcases error_of_bind h with hrest | ⟨_, h⟩
        · exact ih hrest
        · cases h
    · exact ih h

variable (h : q.Ensures total scope I) (hp : p.InScope total scope) {nodes : List NodeId}
    (hnodes : ∀ n ∈ nodes, scope.node n = true)

include h hnodes

theorem params_ensures : (params p q nodes).Ensures total I fun found => ∀ x ∈ found, x.type.InScope scope := by
  refine .filterMapM fun node hnode => ?_
  split
  · exact .bind (h.typeOf (hnodes node hnode)) fun t ht => .pure (by simpa using ht)
  · exact .pure (by simp)

theorem fields_ensures : (fields p q nodes).Ensures total I fun found => ∀ f ∈ found, f.type.InScope scope := by
  refine .filterMapM fun node hnode => ?_
  split
  · exact .bind (h.typeOf (hnodes node hnode)) fun t ht => .pure (by simpa using ht)
  · exact .pure (by simp)

theorem attributes_ensures : (attributes p q nodes).Ensures total I fun found => ∀ a ∈ found, a.type.InScope scope := by
  refine .filterMapM fun node hnode => ?_
  split
  · exact .bind (h.typeOf (hnodes node hnode)) fun t ht => .pure (by simpa using ht)
  · exact .pure (by simp)

theorem classMethods_ensures : (classMethods p q nodes).Ensures total I fun found => ∀ m ∈ found, m.InScope scope := by
  refine .filterMapM fun node hnode => ?_
  have hlt := hnodes node hnode
  split
  · split
    · exact .bind (h.signatureOf hlt) fun s hs => .pure (by simpa using ⟨by simpa using hlt, hs⟩)
    · exact .pure (by simp)
  · exact .pure (by simp)

theorem interfaceMethods_ensures :
    (interfaceMethods p q nodes).Ensures total I fun found => ∀ m ∈ found, m.InScope scope := by
  refine .filterMapM fun node hnode => ?_
  have hlt := hnodes node hnode
  split
  · split
    · exact .bind (h.signatureOf hlt) fun s hs => .pure (by simpa using ⟨by simpa using hlt, hs⟩)
    · exact .pure (by simp)
  · exact .pure (by simp)

omit hnodes

include hp

theorem generics_ensures : (generics p q nodes).Ensures total I fun found =>
    ∀ g ∈ found, ∀ t ∈ g.constraint, t.InScope scope := by
  refine .filterMapM fun node _ => ?_
  split
  · next name constraint hform =>
    have hconstraint : ∀ n ∈ constraint, scope.node n = true :=
      fun n hn => hp.child hform n (by simpa [Form.children] using hn)
    exact .bind (h.typeOf? hconstraint) fun t ht => .pure (by simpa using ht)
  · exact .pure (by simp)

theorem variantType_ensures : (variantType p q nodes).Ensures total I (Ty.InScope scope) := by
  refine .bind (P := fun found => ∀ c ∈ found, ∀ f ∈ c.params, f.type.InScope scope)
    (.filterMapM fun node _ => ?_) fun cases hcases => .pure (by simpa using hcases)
  split
  · next name params hform =>
    exact .bind (fields_ensures h (hp.child hform)) fun found hfound => .pure (by simpa using hfound)
  · exact .pure (by simp)

theorem bodyType_ensures (kind : FnKind) {body : NodeId} (hbody : scope.node body = true) :
    (bodyType p q kind body).Ensures total I (Ty.InScope scope) := by
  have hsettle {t : Ty} (ht : t.InScope scope) : (settle t).InScope scope := by
    unfold settle
    split
    · exact Ty.prim_inScope .never
    · exact ht
  -- what leaves a body are children of its nodes
  have hvalues : (bodyValues p kind body).Ensures total I
      fun values => ∀ value ∈ values, ∀ n ∈ value, scope.node n = true := by
    refine .bind (hp.collect _ hbody) fun nodes _ => .pure fun value hvalue n hn => ?_
    obtain ⟨node, -, rfl⟩ := List.mem_map.mp hvalue
    obtain ⟨form, hform, hleaving⟩ := Option.bind_eq_some_iff.mp hn
    exact hp.child hform n (Form.leavingValue?_mem_children hleaving)
  have hblock : Search.Ensures total I
      (do
        let values ← bodyValues p kind body
        if values.isEmpty then return .void
        return settle (← q.commonType (← values.mapM q.typeOrVoid))) (Ty.InScope scope) := by
    refine .bind hvalues fun values hvalues => ?_
    split
    · exact .pure (Ty.prim_inScope .void)
    · refine .bind (.mapM fun value hvalue => h.typeOrVoid (hvalues value hvalue)) fun types htypes => ?_
      exact .bind (h.commonType htypes) fun t ht => .pure (hsettle ht)
  refine .bind (hp.form hbody) fun form _ => ?_
  split
  · exact .bind (h.typeOf hbody) fun t ht => .pure (hsettle ht)
  · exact hblock

theorem functionType_ensures {genericNodes paramNodes : List NodeId} {result body : Option NodeId} (kind : FnKind)
    (hparams : ∀ n ∈ paramNodes, scope.node n = true)
    (hresult : ∀ n ∈ result, scope.node n = true) (hbody : ∀ n ∈ body, scope.node n = true) :
    (functionType p q genericNodes paramNodes result body kind).Ensures total I (Ty.InScope scope) := by
  have hfound : (resultType p q result body kind).Ensures total I (Ty.InScope scope) := by
    cases result with
    | some node => exact h.typeOf (hresult node rfl)
    | none =>
      cases body with
      | some node => exact bodyType_ensures h hp kind (hbody node rfl)
      | none => exact .pure (Ty.prim_inScope .void)
  refine .bind (generics_ensures h hp) fun generics hgenerics => ?_
  refine .bind (params_ensures h hparams) fun params hparams => .bind hfound fun t ht => .pure ?_
  exact Ty.inScope_of.mpr (Shape.inScope_fn.mpr ⟨hparams, ht, hgenerics⟩)

theorem paramType_ensures {node : NodeId} {f : ParamForm} (htype : ∀ n ∈ f.type, scope.node n = true) :
    (paramType p q node f).Ensures total I (Ty.InScope scope) := by
  unfold paramType
  dsimp only
  split
  · next type hf => exact h.typeOf (htype type hf)
  · split
    · exact .pure (Ty.error_inScope rfl)
    · next parent hparent =>
      split
      · refine .bind (h.expected (hp.owner hparent)) fun t ht => ?_
        split
        · exact .pure (Ty.error_inScope rfl)
        · next t =>
          refine .bind (h.resolveDeep (ht t rfl)) fun resolved hresolved => .pure ?_
          refine Ty.getD_inScope (fun u hu => ?_) (Ty.error_inScope rfl)
          obtain ⟨param, hparam, rfl⟩ := Option.map_eq_some_iff.mp hu
          obtain ⟨s, hs, hparam⟩ := Option.bind_eq_some_iff.mp hparam
          obtain ⟨position, -, hparam⟩ := Option.bind_eq_some_iff.mp hparam
          have hsignature := Shape.inScope_fn.mp (hresolved.shape (Ty.signature?_eq_some.mp hs))
          exact hsignature.params param (List.mem_of_getElem? hparam)
      · exact .pure (Ty.error_inScope rfl)

omit hp in
theorem variableType_ensures {v : VariableForm} (htype : ∀ n ∈ v.type, scope.node n = true)
    (hinit : ∀ n ∈ v.init, scope.node n = true) :
    (variableType q v).Ensures total I (Ty.InScope scope) := by
  unfold variableType
  cases hwritten : v.type with
  | some type => exact h.typeOf (htype type hwritten)
  | none =>
    cases hgiven : v.init with
    | none => exact .pure (Ty.error_inScope rfl)
    | some init =>
      refine .bind (h.typeOf (hinit init hgiven)) fun t ht => .pure ?_
      split
      · exact Ty.error_inScope rfl
      · exact ht

omit hp in
theorem classType_ensures {c : ClassForm} (hc : ∀ n ∈ (Form.classType c).children, scope.node n = true) :
    (classType p q c).Ensures total I (Ty.InScope scope) := by
  simp only [Form.children, List.forall_mem_append] at hc
  obtain ⟨⟨⟨hsupers, hattributes⟩, hmethods⟩, himpls⟩ := hc
  refine .bind (attributes_ensures h hattributes) fun attributes hattributes => ?_
  refine .bind (classMethods_ensures h hmethods) fun methods hmethods => ?_
  refine .bind (h.typesOf hsupers) fun supers hsupers => .bind (h.typesOf himpls) fun impls himpls => .pure ?_
  exact Ty.inScope_of.mpr (Shape.inScope_cls.mpr ⟨hattributes, hmethods, hsupers, himpls⟩)

omit hp in
theorem interfaceType_ensures {methods supers : List NodeId} (hmethods : ∀ n ∈ methods, scope.node n = true)
    (hsupers : ∀ n ∈ supers, scope.node n = true) :
    (interfaceType p q methods supers).Ensures total I (Ty.InScope scope) := by
  refine .bind (interfaceMethods_ensures h hmethods) fun methods hmethods => ?_
  refine .bind (h.typesOf hsupers) fun supers hsupers => .pure ?_
  exact Ty.inScope_of.mpr (Shape.inScope_interface.mpr ⟨hmethods, hsupers⟩)

omit hp in
theorem coroutineType_ensures {function : NodeId} (hfunction : scope.node function = true) :
    (coroutineType q function).Ensures total I (Ty.InScope scope) := by
  refine .bind (h.typeOf hfunction) fun t ht => ?_
  split
  · next s hs =>
    refine .pure ?_
    split
    · exact Ty.inScope_of.mpr (Shape.inScope_coroutine.mpr (Shape.inScope_fn.mp (ht.shape hs)))
    · exact Ty.error_inScope rfl
  · exact .pure ht
  · exact .pure (Ty.error_inScope rfl)

theorem constructorType_ensures {node : NodeId} (name : String) {params : List NodeId}
    (hparams : ∀ n ∈ params, scope.node n = true) :
    (constructorType p q node name params).Ensures total I (Ty.InScope scope) := by
  unfold constructorType
  split
  · exact .pure (Ty.error_inScope rfl)
  · next parent hparent =>
    refine .bind (h.typeOf (hp.owner hparent)) fun variant hvariant => ?_
    refine .bind (fields_ensures h hparams) fun fields hfields => .pure ?_
    refine Ty.inScope_of.mpr (Shape.inScope_constructed.mpr ⟨fun decl hdecl => ?_, hvariant, by simp, hfields⟩)
    exact hp.owner (Option.filter_eq_some_iff.mp hdecl).1

theorem enumCaseType_ensures (node : NodeId) : (enumCaseType p q node).Ensures total I (Ty.InScope scope) := by
  unfold enumCaseType
  split
  · next parent hparent => exact h.typeOf (hp.owner hparent)
  · exact .pure (Ty.error_inScope rfl)

end Declarations

/-! ## All rules -/

section Rules

variable (h : q.Ensures total scope I) (hp : p.InScope total scope) (hI : Checker.Logging scope I)

include h

theorem castType_ensures {expr target : NodeId} (hexpr : scope.node expr = true) (htarget : scope.node target = true)
    (kind : CastKind) :
    (castType q expr target kind).Ensures total I (Ty.InScope scope) := by
  refine .bind (h.typeOf hexpr) fun source hsource => ?_
  split
  · exact .pure hsource
  · refine .bind (h.typeOf htarget) fun t ht => .pure ?_
    split
    · exact ht.nullable
    · exact ht

theorem coroutineOf_ensures {function : NodeId} (hfunction : scope.node function = true) :
    (coroutineOf q function).Ensures total I (Ty.InScope scope) := by
  refine .bind (h.typeOf hfunction) fun t ht => ?_
  split
  · exact .pure ht
  · refine .bind (h.resolveDeep ht) fun target htarget => ?_
    split
    · next s hs =>
      refine .pure ?_
      split
      · exact Ty.inScope_of.mpr (Shape.inScope_coroutine.mpr (Shape.inScope_fn.mp (htarget.shape hs)))
      · exact Ty.error_inScope rfl
    · exact .pure (Ty.error_inScope rfl)

include hp hI

/-- `ruleFor` every form gives a type that is `InScope`. -/
theorem ruleFor_ensures {node : NodeId} {form : Form} (hform : p.form? node = some form) :
    (ruleFor p q node form).Ensures total I (Ty.InScope scope) := by
  have hnode : scope.node node = true := hp.here hform
  have hchild : ∀ n ∈ form.children, scope.node n = true := hp.child hform
  have htarget : ∀ n ∈ form.target?, scope.node n = true := fun n hn => hp.bound hform hn
  cases form <;> simp only [ruleFor]
  -- declarations and types as written
  case funDecl f =>
    simp only [Form.children, List.forall_mem_append, Option.mem_toList] at hchild
    exact functionType_ensures h hp _ hchild.1.1.2 hchild.1.2 hchild.2
  case param f => exact paramType_ensures h hp (by simpa [Form.children] using hchild)
  case varDecl v =>
    simp only [Form.children, List.forall_mem_append, Option.mem_toList] at hchild
    exact variableType_ensures h hchild.1 hchild.2
  case method m =>
    simp only [Form.children, List.forall_mem_append, Option.mem_toList] at hchild
    exact functionType_ensures h hp _ hchild.1.1.2 hchild.1.2 hchild.2
  case interfaceMethod m =>
    simp only [Form.children, List.forall_mem_append, Option.mem_toList] at hchild
    exact functionType_ensures h hp _ hchild.1.2 hchild.2 (by simp)
  case ctorDecl name params => exact constructorType_ensures h hp name hchild
  case enumCase => exact enumCaseType_ensures h hp _
  case structType =>
    exact .bind (fields_ensures h hchild) fun fields hfields => .pure (by simpa [Ty.struct] using hfields)
  case classType c => exact classType_ensures h hchild
  case interfaceType methods supers =>
    simp only [Form.children, List.forall_mem_append] at hchild
    exact interfaceType_ensures h hchild.2 hchild.1
  case variantType => exact variantType_ensures h hp
  case enumType =>
    refine .pure ?_
    unfold enumType
    split
    · simp [Ty.enum]
    · next problem hcases => exact Ty.error_inScope (enumCases_isPlaceholder hcases)
  case functionType =>
    simp only [Form.children, List.forall_mem_append, Option.mem_toList] at hchild
    exact functionType_ensures h hp _ hchild.1 hchild.2 (by simp)
  case coroutineType => exact coroutineType_ensures h (by simpa [Form.children] using hchild)
  case reference => exact referenceType_ensures h hp htarget hchild
  -- expressions
  case int => exact intType_ensures h hnode _
  case float => exact floatType_ensures h hnode _
  case name => exact nameType_ensures h hp htarget
  case this => exact thisType_ensures h hp hnode
  case binary =>
    simp only [Form.children, List.forall_mem_cons] at hchild
    exact binaryType_ensures h _ hchild.1 hchild.2.1
  case unary => exact unaryType_ensures h _ (by simpa [Form.children] using hchild)
  case call =>
    simp only [Form.children, List.forall_mem_cons, List.forall_mem_append] at hchild
    exact callType_ensures hp h hI hchild.1 hchild.2.1 hchild.2.2
  case member => exact memberType_ensures h hp (by simpa [Form.children] using hchild)
  case index =>
    simp only [Form.children, List.forall_mem_cons] at hchild
    exact indexType_ensures h hp hchild.1 hchild.2.1
  case conditional =>
    exact .bind (h.typesOf fun n hn => hchild n (List.mem_cons_of_mem _ hn)) fun _ htypes => h.commonType htypes
  case matchExpr =>
    split
    · exact .pure (Ty.prim_inScope .void)
    · exact .bind (h.typesOf fun n hn => hchild n (List.mem_cons_of_mem _ hn)) fun _ htypes => h.commonType htypes
  case array => exact arrayType_ensures h hnode hchild
  case struct => exact structType_ensures h hchild
  case newExpr =>
    simp only [Form.children, List.forall_mem_cons] at hchild
    exact newType_ensures hp h hI hchild.1 hchild.2
  case lambda l =>
    simp only [Form.children, List.forall_mem_append, Option.mem_toList] at hchild
    exact functionType_ensures h hp _ hchild.1.1.2 hchild.1.2 (by simpa using hchild.2)
  case cast =>
    simp only [Form.children, List.forall_mem_cons] at hchild
    exact castType_ensures h hchild.1 hchild.2.1 _
  case coroutine => exact coroutineOf_ensures h (by simpa [Form.children] using hchild)
  -- forms that are built from the types of other nodes
  case genericParam =>
    refine .bind (h.typeOf? (by simpa [Form.children] using hchild)) fun t ht => .pure ?_
    exact Ty.inScope_of.mpr (Shape.inScope_generic.mpr ht)
  case unionType =>
    refine .bind (h.typesOf hchild) fun types htypes => .pure ?_
    exact (Ty.inScope_of.mpr (Shape.inScope_union.mpr htypes)).simplify
  case joinType =>
    refine .bind (h.typesOf hchild) fun types htypes => .pure ?_
    exact (Ty.inScope_of.mpr (Shape.inScope_join.mpr htypes)).simplify
  case tupleType | tuple =>
    exact .bind (h.typesOf hchild) fun types htypes => .pure (Ty.inScope_of.mpr (Shape.inScope_tuple.mpr htypes))
  case arrayType =>
    refine .bind (h.typeOf (by simpa [Form.children] using hchild)) fun t ht => .pure ?_
    exact Ty.inScope_of.mpr (Shape.inScope_array.mpr ht)
  case nullableType =>
    exact .bind (h.typeOf (by simpa [Form.children] using hchild)) fun t ht => .pure ht.nullable
  case denull =>
    exact .bind (h.typeOf (by simpa [Form.children] using hchild)) fun t ht => .pure ht.stripNullable
  case «attribute» | field | structField => exact h.typeOf (by simpa [Form.children] using hchild)
  case typeDecl | matchArm | assignment => exact h.typeOf (hchild _ (by simp [Form.children]))
  -- forms with a fixed type
  case pending => exact .pure (Ty.error_inScope rfl)
  case stringEnumType => exact .pure (by simp)
  all_goals exact .pure (Ty.prim_inScope _)

/-- `expand` gives a type that is `InScope`. -/
theorem expand_ensures {r : Reference Ty} (hr : (Shape.ref r).InScope scope) :
    (expand p q r).Ensures total I (Ty.InScope scope) := by
  obtain ⟨hdecl, hargs⟩ := Shape.inScope_ref.mp hr
  refine .bind (hp.form hdecl) fun form _ => ?_
  split
  · next d _ =>
    -- a declared type: its definition, with the arguments in place of the generic parameters
    refine .bind (h.typeOf hdecl) fun definition hdefinition => ?_
    dsimp only
    split
    · exact .pure hdefinition
    · split
      · exact .pure (Ty.error_inScope rfl)
      · have hresolved := hdefinition.substitute (Bindings.zip_inScope (p.genericNames d.generics) hargs)
        refine .bind (Infer.countResolution_ensures hI) fun _ _ => ?_
        -- a class is logged, and an alias is followed
        split
        · refine .bind (Infer.settings_ensures) fun settings _ => ?_
          split
          · refine .bind (Infer.discard_ensures (Infer.logClass_ensures hI _ _ hargs)) fun _ _ => ?_
            exact .pure hresolved
          · exact .pure hresolved
        · next next hnext => exact h.resolve hnext hresolved
        · exact .pure hresolved
  · exact h.typeOf hdecl
  · exact .pure (Ty.error_inScope rfl)

end Rules

end Typing

end Ascribe
