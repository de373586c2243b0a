import Ascribe.Proofs.Typing.Direct

/-!
# Questions that settle

A question settles when the rules answer it without a memo. The answer then depends on the settings only
(`direct_indifferent`), and it is the same however deep the rules were allowed to go (`Settles.unique`,
`StandsFor.unique`). A node whose type settles never depends on itself.
-/

namespace Ascribe

/-! ## Answers that depend on the settings only -/

namespace Infer

variable {α β : Type} (s : Settings)

/-- Under some settings a search gives an answer, whatever else the checker knows. -/
def Yields (x : Infer α) (v : α) : Prop :=
  ∀ c : Checker, c.settings = s → ∃ c', x.run c = .ok (v, c') ∧ c'.settings = s

/-- Under some settings a search gives the same answer, if any, whatever else the checker knows. -/
def Indifferent (x : Infer α) : Prop :=
  ∀ c v c', c.settings = s → x.run c = .ok (v, c') → x.Yields s v

variable {s} {x : Infer α} {k : α → Infer β} {v w : α}

theorem Yields.unique (h : x.Yields s v) (h' : x.Yields s w) : v = w := by
  obtain ⟨c, hrun, -⟩ := h { settings := s } rfl
  obtain ⟨c', hrun', -⟩ := h' { settings := s } rfl
  exact (Prod.mk.inj (Except.ok.inj (hrun.symm.trans hrun'))).1

theorem Yields.settings (h : x.Yields s v) {c c' : Checker} (hc : c.settings = s)
    (hrun : x.run c = .ok (w, c')) : w = v ∧ c'.settings = s := by
  obtain ⟨c₁, hrun₁, hsettings⟩ := h c hc
  obtain ⟨rfl, rfl⟩ := Prod.mk.inj (Except.ok.inj (hrun.symm.trans hrun₁))
  exact ⟨rfl, hsettings⟩

theorem Yields.of_refines {y : Infer α} (hy : y.Yields s v) (h : Lockstep.refines.Rel x y) : x.Yields s v := by
  intro c hc
  obtain ⟨c', hrun, hsettings⟩ := hy c hc
  exact ⟨c', h c v c' hrun, hsettings⟩

theorem not_yields_exhausted : ¬ Infer.Yields s (Search.exhausted : Infer α) v := by
  intro h
  obtain ⟨c, hrun, -⟩ := h { settings := s } rfl
  exact nomatch hrun

/-- `Yields` of `x >>= k` is that of both parts. -/
theorem Indifferent.yields_bind (hx : x.Indifferent s) (hk : ∀ a, (k a).Indifferent s) {w : β} :
    (x >>= k).Yields s w ↔ ∃ v, x.Yields s v ∧ (k v).Yields s w := by
  constructor
  · intro h
    -- one run tells the answers of both parts, since neither depends on the checker
    obtain ⟨c', hrun, -⟩ := h { settings := s } rfl
    obtain ⟨v, c₁, hv, hw⟩ := Search.run_bind_eq_ok.mp hrun
    have hyields := hx _ v c₁ rfl hv
    exact ⟨v, hyields, hk v c₁ w c' (hyields.settings rfl hv).2 hw⟩
  · rintro ⟨v, hv, hw⟩ c hc
    obtain ⟨c₁, hrun, hsettings⟩ := hv c hc
    obtain ⟨c', hrun', hsettings'⟩ := hw c₁ hsettings
    exact ⟨c', Search.run_bind_eq_ok.mpr ⟨v, c₁, hrun, hrun'⟩, hsettings'⟩

theorem Indifferent.bind (hx : x.Indifferent s) (hk : ∀ a, (k a).Indifferent s) : (x >>= k).Indifferent s := by
  intro c w c' hc h
  obtain ⟨v, c₁, hv, hw⟩ := Search.run_bind_eq_ok.mp h
  have hyields := hx c v c₁ hc hv
  exact (hx.yields_bind hk).mpr ⟨v, hyields, hk v c₁ w c' (hyields.settings hc hv).2 hw⟩

end Infer

/-- Searches whose answer depends on the settings only, as a lockstep. -/
def Lockstep.indifferent (s : Settings) : Lockstep Checker Checker where
  Rel x _ := Infer.Indifferent s x
  pure a := by
    intro c v c' hc h e he
    obtain ⟨rfl, -⟩ := Search.run_pure_eq_ok.mp h
    exact ⟨e, rfl, he⟩
  throw fault := by
    intro c v c' hc h
    exact nomatch h
  bind := Infer.Indifferent.bind

/-- A search that is `Aside` of the memos is `Indifferent`: it answers by the settings. -/
theorem Infer.Aside.indifferent {α : Type} {x : Infer α} (h : x.Aside) (s : Settings) : x.Indifferent s := by
  obtain ⟨answer, hanswer⟩ := h
  intro c v c' hc hrun e he
  obtain ⟨c₁, hrun₁, -⟩ := hanswer c
  obtain ⟨rfl, -⟩ := Prod.mk.inj (Except.ok.inj (hrun.symm.trans hrun₁))
  obtain ⟨e₁, hrun₂, hsettings, -⟩ := hanswer e
  rw [hc, ← he]
  exact ⟨e₁, hrun₂, hsettings⟩

variable {p : Tree} {known : Reference Ty → Bool} {s : Settings}

theorem Lockstep.indifferent_effects (s : Settings) : (Lockstep.indifferent s).Effects :=
  .of_aside fun haside => haside.indifferent s

theorem Typing.permit_indifferent (s : Settings) {depth : Nat} {r : Reference Ty} :
    (permit known depth r).Indifferent s := by
  intro c v c' hc hrun e he
  obtain ⟨⟨hknown, hlt⟩, -⟩ := run_permit.mp hrun
  exact ⟨e, run_permit.mpr ⟨⟨hknown, by rwa [he, ← hc]⟩, rfl⟩, he⟩

/-- `direct` depends on the settings only. -/
theorem direct_indifferent (depth references : Nat) :
    (direct p known depth references).InStep (.indifferent s) (direct p known depth references) := by
  have heffects := Lockstep.indifferent_effects s
  induction depth generalizing references with
  | zero => exact Queries.exhausted_inStep
  | succ depth ih =>
    refine Queries.above_inStep (ih references) (Typing.ruleType_rel (ih references) heffects) fun r => ?_
    exact (Lockstep.indifferent s).bind (Typing.permit_indifferent s) fun _ =>
      Typing.expand_rel (ih _) p heffects r

/-! ## Questions that settle -/

section Settling

variable (p known s)

/-- The type of a node settles: the rules find it without a memo. -/
def Settles (node : NodeId) (t : Ty) : Prop :=
  ∃ depth references, ((direct p known depth references).typeOf node).Yields s t

/-- What a named type stands for settles: the rules find it without a memo. -/
def StandsFor (r : Reference Ty) (t : Ty) : Prop :=
  ∃ depth references, Infer.Yields s ((direct p known depth references).resolve r) t

end Settling

theorem Infer.Yields.typeOf_mono {depth depth' references references' : Nat} {node : NodeId} {t : Ty}
    (h : ((direct p known depth references).typeOf node).Yields s t) (hdepth : depth ≤ depth')
    (hreferences : references' ≤ references) : ((direct p known depth' references').typeOf node).Yields s t :=
  h.of_refines ((direct_refines hdepth hreferences).typeOf node)

theorem Infer.Yields.resolve_mono {depth depth' references references' : Nat} {r : Reference Ty} {t : Ty}
    (h : Infer.Yields s ((direct p known depth references).resolve r) t) (hdepth : depth ≤ depth')
    (hreferences : references' ≤ references) :
    Infer.Yields s ((direct p known depth' references').resolve r) t :=
  h.of_refines ((direct_refines hdepth hreferences).resolve r)

/-- A type that `direct` yields is yielded at a least depth, one level below which the node gets no answer. -/
theorem Infer.Yields.least {depth references : Nat} {node : NodeId} {t : Ty}
    (h : ((direct p known depth references).typeOf node).Yields s t) :
    ∃ least < depth, ((direct p known (least + 1) references).typeOf node).Yields s t ∧
      ∀ u, ¬ ((direct p known least references).typeOf node).Yields s u := by
  induction depth with
  | zero => exact absurd h Infer.not_yields_exhausted
  | succ depth ih =>
    by_cases hbelow : ∃ u, ((direct p known depth references).typeOf node).Yields s u
    · obtain ⟨u, hu⟩ := hbelow
      obtain rfl : u = t := (hu.typeOf_mono (Nat.le_succ depth) (Nat.le_refl _)).unique h
      obtain ⟨least, hlt, hleast⟩ := ih hu
      exact ⟨least, Nat.lt_succ_of_lt hlt, hleast⟩
    · exact ⟨depth, Nat.lt_succ_self depth, h, fun u hu => hbelow ⟨u, hu⟩⟩

theorem Settles.unique {node : NodeId} {t u : Ty} (h : Settles p known s node t)
    (h' : Settles p known s node u) : t = u := by
  -- both answers are found at the greater depth below the fewer named types
  obtain ⟨depth, references, h⟩ := h
  obtain ⟨depth', references', h'⟩ := h'
  have hmost := h.typeOf_mono (Nat.le_max_left depth depth') (Nat.min_le_left references references')
  have hmost' := h'.typeOf_mono (Nat.le_max_right depth depth') (Nat.min_le_right references references')
  exact hmost.unique hmost'

theorem StandsFor.unique {r : Reference Ty} {t u : Ty} (h : StandsFor p known s r t)
    (h' : StandsFor p known s r u) : t = u := by
  obtain ⟨depth, references, h⟩ := h
  obtain ⟨depth', references', h'⟩ := h'
  have hmost := h.resolve_mono (Nat.le_max_left depth depth') (Nat.min_le_left references references')
  have hmost' := h'.resolve_mono (Nat.le_max_right depth depth') (Nat.min_le_right references references')
  exact hmost.unique hmost'

/-! ## What settling takes -/

namespace Typing

variable {q : Queries} (h : q.InStep (.indifferent s) q)

include h

/-- `ruleType` types a node by `ruleFor` its form. -/
theorem yields_ruleType {node : NodeId} {t : Ty} (hyields : (ruleType p q node).Yields s t) :
    ∃ form u, p.form node = .ok form ∧ (ruleFor p q node form).Yields s u ∧ t = u.orOrigin node := by
  let L := Lockstep.indifferent s
  have heffects : L.Effects := Lockstep.indifferent_effects s
  have hrule (form : Form) := ruleFor_rel h p heffects node form
  obtain ⟨form, hwalk, hrest⟩ := (Infer.Indifferent.yields_bind (L.ofWalk (p.form node))
    fun form => L.bind (hrule form) fun _ => L.pure _).mp hyields
  obtain ⟨u, hu, hpure⟩ := (Infer.Indifferent.yields_bind (hrule form) fun _ => L.pure _).mp hrest
  obtain ⟨c, hrun, -⟩ := hwalk { settings := s } rfl
  obtain ⟨c', hrun', -⟩ := hpure { settings := s } rfl
  exact ⟨form, u, (Search.run_ofWalk_eq_ok.mp hrun).1, hu, (Search.run_pure_eq_ok.mp hrun').1⟩

/-- `permitExpand` yields something for a named type only if it is permitted, and then what `expand` does. -/
theorem yields_permitExpand {depth : Nat} {r : Reference Ty} {t : Ty}
    (hyields : (permitExpand p q known depth r).Yields s t) :
    (known r = true ∧ depth < s.maxReferenceDepth) ∧ (expand p q r).Yields s t := by
  have hexpand := expand_rel h p (Lockstep.indifferent_effects s) r
  obtain ⟨_, hpermit, hrest⟩ :=
    (Infer.Indifferent.yields_bind (permit_indifferent s) fun _ => hexpand).mp hyields
  obtain ⟨c, hrun, -⟩ := hpermit { settings := s } rfl
  exact ⟨(run_permit.mp hrun).1, hrest⟩

end Typing

theorem StandsFor.isKnown {r : Reference Ty} {t : Ty} (h : StandsFor p known s r t) : known r = true := by
  obtain ⟨depth, references, h⟩ := h
  cases depth with
  | zero => exact absurd h Infer.not_yields_exhausted
  | succ depth => exact (Typing.yields_permitExpand (direct_indifferent depth _) h).1.1

end Ascribe
