import Ascribe.Proofs.Assignability.Rules
import Ascribe.Proofs.Ty.Substitution
import Ascribe.Proofs.Typing.Settling

/-!
# What a named type stands for

A named type stands for the definition of its declaration. `Expansion` lists all that can come of expanding one,
given what the types of nodes and the named types met on the way are known to be. Two facts follow: a named type
never stands for a named type, since aliases are followed to their end (`StandsFor.reference?_eq_none`), and an
alias stands for what the type it is defined as stands for (`StandsFor.of_alias`).
-/

namespace Ascribe

theorem Infer.Indifferent.returnsUnder {α : Type} {s : Settings} {x : Infer α} (h : x.Indifferent s) :
    x.ReturnsUnder (·.settings = s) (x.Yields s) := by
  intro c v c' hc hrun
  have hyields := h c v c' hc hrun
  exact ⟨(hyields.settings hc hrun).2, hyields⟩

@[simp] theorem Ty.shape_orOrigin (t : Ty) (node : NodeId) : (t.orOrigin node).shape = t.shape := by
  unfold orOrigin
  split <;> rfl

/-- What can come of expanding a named type, if `T` says what the types of nodes are and `S` what named types
stand for. -/
inductive Expansion (p : Tree) (T : NodeId → Ty → Prop) (S : Reference Ty → Ty → Prop) (r : Reference Ty) :
    Ty → Prop where
  /-- A type definition that is not itself a named type, at the arguments. -/
  | definition {d : TypeDeclForm} {t : Ty} (form : p.form r.decl = .ok (.typeDecl d)) (type : T r.decl t)
    (unnamed : (t.substitute (.zip (p.genericNames d.generics) r.args)).reference? = none) :
    Expansion p T S r (t.substitute (.zip (p.genericNames d.generics) r.args))
  /-- What the named type that a type is defined as stands for, at the arguments. -/
  | followed {d : TypeDeclForm} {t u : Ty} {next : Reference Ty} (form : p.form r.decl = .ok (.typeDecl d))
    (type : T r.decl t)
    (named : (t.substitute (.zip (p.genericNames d.generics) r.args)).reference? = some next)
    (target : S next u) : Expansion p T S r u
  /-- A generic parameter. -/
  | param {name : String} {constraint : Option NodeId} {t : Ty}
    (form : p.form r.decl = .ok (.genericParam name constraint)) (type : T r.decl t) : Expansion p T S r t
  /-- An error: the declaration is still open, is not given as many arguments as it has parameters, or does not
  declare a type. -/
  | failed {t : Ty} (error : t.isError = true) : Expansion p T S r t

namespace Typing

variable {p : Tree} {q : Queries} {s : Settings} {T : NodeId → Ty → Prop} {S : Reference Ty → Ty → Prop}

/-- `expand` gives an `Expansion` of the named type. -/
theorem expand_returnsUnder (htype : ∀ node, (q.typeOf node).ReturnsUnder (·.settings = s) (T node))
    (hresolve : ∀ r, Search.ReturnsUnder (·.settings = s) (q.resolve r) (S r)) (r : Reference Ty) :
    (expand p q r).ReturnsUnder (·.settings = s) (Expansion p T S r) := by
  have heffects := Lockstep.indifferent_effects s
  unfold expand
  refine .bind (.ofWalk _) fun form hform => ?_
  split
  · refine .bind (htype r.decl) fun t ht => ?_
    dsimp only
    split
    · next hopen => exact .pure (.failed (Ty.isError_of_isPlaceholder hopen))
    · split
      · exact .pure (.failed rfl)
      · refine .bind (Infer.Indifferent.returnsUnder heffects.countResolution) fun _ _ => ?_
        split
        · next d _ _ _ _ _ body hshape =>
          have hdefinition := Expansion.definition hform ht (S := S) (Ty.reference?_eq_none_iff.mpr (by simp [hshape]))
          refine .bind (Infer.Indifferent.returnsUnder heffects.settings) fun _ _ => ?_
          split
          · have hlog := Lockstep.discard (heffects.logClass r.decl d.name r.args)
            exact .bind (Infer.Indifferent.returnsUnder hlog) fun _ _ => .pure hdefinition
          · exact .pure hdefinition
        · next next hshape =>
          exact (hresolve next).mono fun u hu => .followed hform ht (Ty.reference?_eq_some.mpr hshape) hu
        · next hcls href => exact .pure (.definition hform ht (Ty.reference?_eq_none_iff.mpr href))
  · exact (htype r.decl).mono fun t ht => .param hform ht
  · exact .pure (.failed rfl)

end Typing

variable {p : Tree} {known : Reference Ty → Bool} {s : Settings} {node : NodeId} {r : Reference Ty} {t : Ty}

/-! ## Nodes that settle -/

/-- A node that `Settles` has the type that `Typing.ruleFor` finds, up to the back-reference. -/
theorem Settles.rule (h : Settles p known s node t) :
    ∃ depth references form u, p.form node = .ok form ∧
      (Typing.ruleFor p (direct p known depth references) node form).Yields s u ∧ t.shape = u.shape := by
  obtain ⟨depth, references, h⟩ := h
  cases depth with
  | zero => exact absurd h Infer.not_yields_exhausted
  | succ depth =>
    obtain ⟨form, u, hform, hu, rfl⟩ := Typing.yields_ruleType (direct_indifferent depth references) h
    exact ⟨depth, references, form, u, hform, hu, Ty.shape_orOrigin u node⟩

/-- A `typeDecl` has the shape of its definition. -/
theorem Settles.typeDecl (h : Settles p known s node t) {d : TypeDeclForm}
    (hform : p.form node = .ok (.typeDecl d)) : ∃ u, Settles p known s d.definition u ∧ t.shape = u.shape := by
  obtain ⟨depth, references, form, u, hform', hu, hshape⟩ := h.rule
  obtain rfl := Except.ok.inj (hform.symm.trans hform')
  exact ⟨u, ⟨depth, references, hu⟩, hshape⟩

/-- A `genericParam` is not a named type. -/
theorem Settles.genericParam (h : Settles p known s node t) {name : String} {constraint : Option NodeId}
    (hform : p.form node = .ok (.genericParam name constraint)) : t.reference? = none := by
  obtain ⟨depth, references, form, u, hform', hu, hshape⟩ := h.rule
  obtain rfl := Except.ok.inj (hform.symm.trans hform')
  obtain ⟨c, hrun, -⟩ := hu { settings := s } rfl
  obtain ⟨bound, c₁, -, hpure⟩ := Search.run_bind_eq_ok.mp hrun
  obtain ⟨rfl, -⟩ := Search.run_pure_eq_ok.mp hpure
  rw [Ty.reference?, hshape]
  rfl

/-- A `reference` without arguments that points at a declared type is that named type. -/
theorem Settles.reference (h : Settles p known s node t) {n : NameForm} {target : NodeId} {d : TypeDeclForm}
    (hform : p.form node = .ok (.reference n [])) (htarget : n.target = some target)
    (hdecl : p.form target = .ok (.typeDecl d)) : t.shape = .ref ⟨target, d.name, []⟩ := by
  obtain ⟨depth, references, form, u, hform', hu, hshape⟩ := h.rule
  obtain rfl := Except.ok.inj (hform.symm.trans hform')
  obtain ⟨c, hrun, -⟩ := hu { settings := s } rfl
  have hreturns : (Typing.referenceType p (direct p known depth references) n []).ReturnsUnder
      (·.settings = s) fun u => u.shape = .ref ⟨target, d.name, []⟩ := by
    unfold Typing.referenceType
    rw [htarget]
    refine .bind (.ofWalk _) fun form hform => ?_
    obtain rfl := Except.ok.inj (hdecl.symm.trans hform)
    exact .pure rfl
  rw [hshape]
  exact (hreturns _ u c rfl hrun).2

/-! ## Named types that settle -/

/-- What `resolve` of `direct` finds is an `Expansion` by what it finds one level below. -/
theorem Infer.Yields.expansion {depth references : Nat} {S : Reference Ty → Ty → Prop}
    (h : Infer.Yields s ((direct p known (depth + 1) references).resolve r) t)
    (hS : ∀ r t, Infer.Yields s ((direct p known depth (references + 1)).resolve r) t → S r t) :
    Expansion p (Settles p known s) S r t := by
  have hq : (direct p known depth (references + 1)).InStep (.indifferent s) _ := direct_indifferent depth _
  obtain ⟨-, hexpand⟩ := Typing.yields_permitExpand hq h
  obtain ⟨c, hrun, -⟩ := hexpand { settings := s } rfl
  have hreturns := Typing.expand_returnsUnder (p := p) (T := Settles p known s)
    (fun node => (hq.typeOf node).returnsUnder.mono fun t ht => ⟨depth, references + 1, ht⟩)
    (fun r => (hq.resolve r).returnsUnder.mono (hS r)) r
  exact (hreturns { settings := s } t c rfl hrun).2

theorem StandsFor.expansion (h : StandsFor p known s r t) :
    Expansion p (Settles p known s) (StandsFor p known s) r t := by
  obtain ⟨depth, references, h⟩ := h
  cases depth with
  | zero => exact absurd h Infer.not_yields_exhausted
  | succ depth => exact h.expansion fun r t ht => ⟨depth, references + 1, ht⟩

/-- A named type never `StandsFor` a named type: aliases are followed to their end. -/
theorem StandsFor.reference?_eq_none (h : StandsFor p known s r t) : t.reference? = none := by
  obtain ⟨depth, references, h⟩ := h
  induction depth generalizing references r t with
  | zero => exact absurd h Infer.not_yields_exhausted
  | succ depth ih =>
    cases h.expansion (S := fun _ t => t.reference? = none) fun r t => ih (references + 1) with
    | definition _ _ unnamed => exact unnamed
    | followed _ _ _ target => exact target
    | param form type => exact type.genericParam form
    | failed error => exact Ty.reference?_eq_none_of_isError error

/-- An alias without arguments `StandsFor` what the named type that it is defined as stands for. -/
theorem StandsFor.of_alias {decl target : NodeId} {name : String} {d d' : TypeDeclForm} {n : NameForm}
    (h : StandsFor p known s ⟨decl, name, []⟩ t) (hdecl : p.form decl = .ok (.typeDecl d))
    (hdefinition : p.form d.definition = .ok (.reference n [])) (hn : n.target = some target)
    (htarget : p.form target = .ok (.typeDecl d')) (herror : t.isError = false) :
    StandsFor p known s ⟨target, d'.name, []⟩ t := by
  -- without arguments nothing is replaced in the definition, which is the named type
  have hnamed {u : Ty} {names : List String} (hu : Settles p known s decl u) :
      (u.substitute (.zip names [])).reference? = some ⟨target, d'.name, []⟩ := by
    have hempty : (Bindings.zip names []).isEmpty = true := by simp [Bindings.zip]; rfl
    obtain ⟨v, hv, hshape⟩ := hu.typeDecl hdecl
    rw [Ty.substitute_of_isEmpty hempty, Ty.reference?_eq_some, hshape]
    exact hv.reference hdefinition hn htarget
  cases h.expansion with
  | definition form type unnamed => exact nomatch (hnamed type).symm.trans unnamed
  | followed form type named next =>
    obtain rfl := Option.some.inj ((hnamed type).symm.trans named)
    exact next
  | param form => exact nomatch hdecl.symm.trans form
  | failed error => exact nomatch error.symm.trans herror

end Ascribe
