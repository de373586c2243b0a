import Ascribe.Proofs.Assignability.Rules

/-!
# The rules look through back-references

Types that are the same compare alike. The rules only look at erased types
(`Assignability.rule_erase`), provided that named types which are the same unfold to types which are
(`Unfolding.Respects`). So what a rule justifies it justifies for all types that are the same, with premises
that are the same (`Assignability.UpToOrigins`), and the greatest relation closed under the rules does not tell
types apart that are the same (`Assignability.assignable_erase`).
-/

namespace Ascribe

/-- `contains` finds a type exactly if it is in the list up to `Ty.erase`. -/
theorem Ty.contains_iff_erase_mem {ts : List Ty} {t : Ty} :
    ts.contains t = true ↔ t.erase ∈ ts.map Ty.erase := by
  simp only [List.contains_iff_exists_mem_beq, Ty.beq_eq_same, Ty.same_iff_erase_eq, List.mem_map]
  exact exists_congr fun x => and_congr_right fun _ => eq_comm

namespace Unfolding

/-- Named types that are the same stand for types that are the same. -/
def Respects (f : Unfolding) : Prop :=
  ∀ r r' : Reference Ty, (Ty.of (.ref r)).same (.of (.ref r')) → (f r).same (f r')

variable {f : Unfolding} (hf : f.Respects)

include hf

/-- An unfolding that `Respects` looks at a reference up to the back-references in its arguments. -/
private theorem erase_unfold {t u : Ty} {r r' : Reference Ty} (h : t.erase = u.erase)
    (hr : t.reference? = some r) (hr' : u.reference? = some r') :
    r.decl = r'.decl ∧ (f r).erase = (f r').erase := by
  have href := congrArg Ty.reference? h
  simp only [Ty.reference?_erase, hr, hr', Option.map_some, Option.some.injEq,
    Reference.mk.injEq] at href
  obtain ⟨hdecl, hname, hargs⟩ := href
  refine ⟨hdecl, (Ty.same_iff_erase_eq _ _).mp (hf r r' ?_)⟩
  rw [Ty.same_iff_erase_eq, Ty.erase_eq, Ty.erase_eq]
  simp only [Ty.of, Shape.erasedWith, Shape.map, Shape.mapUnder, Shape.forgetOrigins, hdecl, hname, hargs]

/-- `follow` leads from types that are the same to one declaration and to types that are the same. -/
theorem follow_congr (steps : Nat) (decl : Option NodeId) {t u : Ty} (h : t.erase = u.erase) :
    (f.follow steps decl t).1 = (f.follow steps decl u).1 ∧
      (f.follow steps decl t).2.erase = (f.follow steps decl u).2.erase := by
  induction steps generalizing decl t u with
  | zero => exact ⟨rfl, h⟩
  | succ steps ih =>
    have href := congrArg Ty.reference? h
    simp only [Ty.reference?_erase] at href
    cases ht : t.reference? with
    | none =>
      have hu : u.reference? = none := by simpa [ht] using href.symm
      simpa only [follow, ht, hu, true_and] using h
    | some r =>
      cases hu : u.reference? with
      | none => simp [ht, hu] at href
      | some r' =>
        obtain ⟨hdecl, hunfold⟩ := erase_unfold hf h ht hu
        have hself : (f r).same t = (f r').same u := by
          rw [Bool.eq_iff_iff, Ty.same_iff_erase_eq, Ty.same_iff_erase_eq, hunfold, h]
        simp only [follow, ht, hu, Ty.beq_eq_same, hself, hdecl]
        split
        · exact ⟨rfl, h⟩
        · exact ih _ hunfold

theorem declared_congr {t u : Ty} (h : t.erase = u.erase) :
    (f.declared t).1 = (f.declared u).1 ∧ (f.declared t).2.erase = (f.declared u).2.erase :=
  follow_congr hf maxAliasChain none h

omit hf in
private theorem contains_congr {seen seen' : List Ty} (hseen : seen.map Ty.erase = seen'.map Ty.erase)
    {t u : Ty} (h : t.erase = u.erase) : seen.contains t = seen'.contains u := by
  rw [Bool.eq_iff_iff, Ty.contains_iff_erase_mem, Ty.contains_iff_erase_mem, hseen, h]

omit hf in
private theorem dropWhile_congr {seen seen' : List Ty}
    (hseen : seen.map Ty.erase = seen'.map Ty.erase) {pending pending' : List Ty}
    (h : pending.map Ty.erase = pending'.map Ty.erase) :
    (pending.dropWhile seen.contains).map Ty.erase =
      (pending'.dropWhile seen'.contains).map Ty.erase := by
  induction pending generalizing pending' with
  | nil =>
    have : pending' = [] := by simpa using h.symm
    rw [this]
    rfl
  | cons t rest ih =>
    cases pending' with
    | nil => simp at h
    | cons u rest' =>
      simp only [List.map_cons, List.cons.injEq] at h
      simp only [List.dropWhile_cons, contains_congr hseen h.1]
      split
      · exact ih h.2
      · simp only [List.map_cons, h.1, h.2]

omit hf in
theorem interface?_erase (t : Ty) :
    t.erase.interface? =
      t.interface?.map fun body => ⟨body.methods.map Method.erase, body.supers.map Ty.erase⟩ := by
  simp only [Ty.interface?, Ty.erase_shape]
  cases t.shape with
  | interface body =>
    simp only [Shape.erasedWith, Shape.map, Shape.mapUnder, Shape.forgetOrigins, Shape.mapMethods,
      List.map_map, Option.map_some]
    rfl
  | _ => rfl

/-- `inherited` methods are equal under `Method.erase` if the super-interfaces are under `Ty.erase`. -/
theorem inherited_congr (visits : Nat) {seen seen' pending pending' : List Ty}
    (hseen : seen.map Ty.erase = seen'.map Ty.erase)
    (hpending : pending.map Ty.erase = pending'.map Ty.erase) :
    (f.inherited visits seen pending).map Method.erase =
      (f.inherited visits seen' pending').map Method.erase := by
  induction visits generalizing seen seen' pending pending' with
  | zero => rfl
  | succ visits ih =>
    -- both sides visit the same super-interface next, or none
    have hdrop := dropWhile_congr hseen hpending
    simp only [inherited]
    cases hp : pending.dropWhile seen.contains with
    | nil =>
      have : pending'.dropWhile seen'.contains = [] := by simpa [hp] using hdrop.symm
      rw [this]
    | cons t rest =>
      cases hp' : pending'.dropWhile seen'.contains with
      | nil => simp [hp, hp'] at hdrop
      | cons u rest' =>
        simp only [hp, hp', List.map_cons, List.cons.injEq] at hdrop
        obtain ⟨htu, hrest⟩ := hdrop
        have hseen' : (t :: seen).map Ty.erase = (u :: seen').map Ty.erase := by
          simp only [List.map_cons, htu, hseen]
        -- and it stands for an interface on both sides or on neither
        have hbody := congrArg Ty.interface? (declared_congr hf htu).2
        simp only [interface?_erase] at hbody
        cases ht : (f.declared t).2.interface? with
        | none =>
          have hu : (f.declared u).2.interface? = none := by simpa [ht] using hbody.symm
          simpa only [ht, hu] using ih hseen' hrest
        | some body =>
          cases hu : (f.declared u).2.interface? with
          | none => simp [ht, hu] at hbody
          | some body' =>
            simp only [ht, hu, Option.map_some, Option.some.injEq, InterfaceBody.mk.injEq] at hbody
            obtain ⟨hmethods, hsupers⟩ := hbody
            simp only [ht, hu, List.map_append, hmethods]
            rw [ih hseen']
            simp only [List.map_append, List.map_reverse, hsupers, hrest]

theorem interfaceMethods_congr {body body' : InterfaceBody Ty}
    (hmethods : body.methods.map Method.erase = body'.methods.map Method.erase)
    (hsupers : body.supers.map Ty.erase = body'.supers.map Ty.erase) :
    (f.interfaceMethods body).map Method.erase = (f.interfaceMethods body').map Method.erase := by
  simp only [interfaceMethods, List.map_append, hmethods]
  rw [inherited_congr hf _ rfl]
  simp only [List.map_reverse, hsupers]

end Unfolding

namespace Assignability

variable {R : Ty → Ty → Prop} (hR : ∀ a e, R a.erase e.erase ↔ R a e)

include hR

theorem fits_erase (a e : Ty) : Fits R a.erase e.erase ↔ Fits R a e := by
  simp only [Fits, Ty.same_erase_erase, Ty.isNever_erase, Ty.isError_erase, Ty.primitive?_erase, hR]

theorem signatureFits_erase (a e : Signature Ty) :
    SignatureFits R a.erase e.erase ↔ SignatureFits R a e := by
  simp only [SignatureFits, Signature.erase, Signature.mapUnder, List.forall₂_map_left_iff,
    List.forall₂_map_right_iff, hR]

theorem conforms_erase (available required : List (Method Ty)) :
    Conforms R (available.map Method.erase) (required.map Method.erase) ↔
      Conforms R available required := by
  simp only [Conforms, List.mem_map, exists_exists_and_eq_and, forall_exists_index, and_imp,
    forall_apply_eq_imp_iff₂]
  simp only [Method.erase, signatureFits_erase hR]

/-- `Conforms` depends on methods up to `Method.erase`. -/
theorem conforms_congr {available available' required required' : List (Method Ty)}
    (ha : available.map Method.erase = available'.map Method.erase)
    (hr : required.map Method.erase = required'.map Method.erase) :
    Conforms R available required ↔ Conforms R available' required' := by
  rw [← conforms_erase hR, ha, hr, conforms_erase hR]

theorem fieldsFit_erase (a e : StructBody Ty) :
    FieldsFit R { a with fields := a.fields.map Field.erase }
        { e with fields := e.fields.map Field.erase } ↔
      FieldsFit R a e := by
  simp only [FieldsFit, List.forall_mem_map, StructBody.field?_erase, Option.map_eq_some_iff]
  simp only [Field.erase, hR, exists_exists_and_eq_and]

theorem casesFit_erase (available required : List (VariantCase Ty)) :
    CasesFit R (available.map VariantCase.erase) (required.map VariantCase.erase) ↔
      CasesFit R available required := by
  simp only [CasesFit, List.length_map, List.forall_mem_map, VariantCase.erase]
  simp only [VariantCase.find?_erase, Option.map_eq_some_iff, exists_exists_and_eq_and]
  simp only [VariantCase.erase, List.forall₂_map_left_iff, List.forall₂_map_right_iff, Field.erase, hR]

variable {f : Unfolding} (hf : f.Respects)

include hf

theorem structural_erase (a e : Ty) : Structural f R a.erase e.erase ↔ Structural f R a e := by
  have hmethods (body : InterfaceBody Ty) :
      (f.interfaceMethods ⟨body.methods.map Method.erase, body.supers.map Ty.erase⟩).map Method.erase =
        (f.interfaceMethods body).map Method.erase :=
    f.interfaceMethods_congr hf (by simp [Function.comp_def]) (by simp [Function.comp_def])
  unfold Structural
  simp only [Ty.erase_shape, Ty.text_erase]
  -- an erased type has the same kind of layer, so both sides are at the same rule
  cases ha : a.shape <;> cases he : e.shape <;>
    simp only [↓Shape.erasedWith_struct, ↓Shape.erasedWith_cls, ↓Shape.erasedWith_interface,
      ↓Shape.erasedWith_variant, ↓Shape.erasedWith_fn,
      Shape.erasedWith, Shape.map, Shape.mapUnder, Shape.forgetOrigins, List.mem_map,
      exists_exists_and_eq_and, forall_exists_index, and_imp, forall_apply_eq_imp_iff₂,
      Option.map_eq_some_iff, List.forall₂_map_left_iff, List.forall₂_map_right_iff, hR, fits_erase hR,
      fieldsFit_erase hR, casesFit_erase hR, signatureFits_erase hR]
  case coroutine.coroutine => exact signatureFits_erase hR _ _
  -- only conformance looks at more than the two layers
  case cls.interface =>
    refine conforms_congr hR ?_ (hmethods _)
    simp only [List.filter_map, List.map_map, Function.comp_def, Method.erase_erase]
    rfl
  case interface.interface => exact conforms_congr hR (hmethods _) (hmethods _)

omit hf in
theorem resolved_congr {a a' e e' : Option NodeId × Ty} (ha : a.1 = a'.1 ∧ a.2.erase = a'.2.erase)
    (he : e.1 = e'.1 ∧ e.2.erase = e'.2.erase) : Resolved R a e ↔ Resolved R a' e' := by
  -- a pair only has to be compared with its erased copy
  suffices herase : ∀ a e : Option NodeId × Ty,
      Resolved R (a.1, a.2.erase) (e.1, e.2.erase) ↔ Resolved R a e by
    rw [← herase a, ← herase a', ha.1, ha.2, he.1, he.2]
  rintro ⟨d, a⟩ ⟨d', e⟩
  unfold Resolved
  simp only [Ty.erase_shape, Ty.same_erase_erase, hR]
  cases ha : a.shape <;> cases he : e.shape <;>
    simp only [Shape.erasedWith, Shape.map, Shape.mapUnder, Shape.forgetOrigins]

theorem general_erase (a e : Ty) : General f R a.erase e.erase ↔ General f R a e := by
  unfold General
  simp only [Ty.reference?_erase, Option.isNone_map]
  split
  · exact structural_erase hR hf a e
  · exact resolved_congr hR (f.declared_congr hf a.erase_erase) (f.declared_congr hf e.erase_erase)

theorem proper_erase (a e : Ty) : Proper f R a.erase e.erase ↔ Proper f R a e := by
  unfold Proper
  simp only [Ty.erase_shape, general_erase hR hf]
  cases ha : a.shape <;> cases he : e.shape <;>
    simp only [Shape.erasedWith, Shape.map, Shape.mapUnder, Shape.forgetOrigins, List.length_map,
      List.forall₂_map_left_iff, List.forall₂_map_right_iff, hR, fits_erase hR]
  case prim.nullable p base => cases p <;> simp only [hR]

theorem rule_erase (a e : Ty) : Rule f R a.erase e.erase ↔ Rule f R a e := by
  simp only [Rule, Ty.same_erase_erase, Ty.isNever_erase, Ty.isError_erase, Ty.isAny_erase,
    proper_erase hR hf]

end Assignability

/-! ## Relations up to back-references -/

namespace Assignability

/-- A relation up to back-references. -/
def UpToOrigins (R : Ty → Ty → Prop) (a e : Ty) : Prop :=
  ∃ a' e', a'.erase = a.erase ∧ e'.erase = e.erase ∧ R a' e'

namespace UpToOrigins

variable {f : Unfolding} {R : Ty → Ty → Prop} {a a' e e' : Ty}

theorem of (h : R a e) : UpToOrigins R a e :=
  ⟨a, e, rfl, rfl, h⟩

theorem erase (a e : Ty) : UpToOrigins R a.erase e.erase ↔ UpToOrigins R a e := by
  simp only [UpToOrigins, Ty.erase_erase]

theorem rule (hf : f.Respects) (ha : a.erase = a'.erase) (he : e.erase = e'.erase) (h : Rule f R a e) :
    Rule f (UpToOrigins R) a' e' := by
  have hupTo : Rule f (UpToOrigins R) a e := h.mono fun _ _ => of
  rw [← rule_erase erase hf] at hupTo ⊢
  rwa [ha, he] at hupTo

theorem resolved (hf : f.Respects) (ha : a.erase = a'.erase) (he : e.erase = e'.erase)
    (h : Resolved R (f.declared a) (f.declared e)) :
    Resolved (UpToOrigins R) (f.declared a') (f.declared e') := by
  have hupTo : Resolved (UpToOrigins R) (f.declared a) (f.declared e) := h.mono fun _ _ => of
  exact (resolved_congr erase (Unfolding.declared_congr hf ha) (Unfolding.declared_congr hf he)).mp hupTo

end UpToOrigins

end Assignability

end Ascribe
