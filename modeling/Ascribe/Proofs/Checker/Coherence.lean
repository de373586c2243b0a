import Ascribe.Proofs.Memo.Growth
import Ascribe.Proofs.Typing.Memoised
import Ascribe.Proofs.Typing.Settling

/-!
# Coherence of the memos

A checker is coherent when what its memos hold is what the rules say without a memo, for every question that
settles (`Checker.Coherent`). Nothing is asked of entries whose question does not settle: a node that depends
on itself may have been typed in several ways.

A coherent checker answers every question that settles as the rules do, and stays coherent
(`guarded_tracks`). What makes this work is that a question that settles never comes back to an open node: the
direct answer for a node needs more depth than those it is found from. A question that does not settle keeps
the checker coherent as well (`guarded_coherent`), so it never spoils the ones that do.
-/

namespace Ascribe

variable (p : Tree) (known : Reference Ty → Bool) (s : Settings)

/-- Known named types that the memo does not tell apart stand for the same type. -/
def KeysAgree : Prop :=
  ∀ r r' : Reference Ty, known r = true → known r' = true → r.key = r'.key →
    ∀ t, StandsFor p known s r t → StandsFor p known s r' t

namespace Checker

/-- What the memos hold is what the rules say, for questions that settle. -/
structure Coherent (c : Checker) : Prop where
  settings : c.settings = s
  types : ∀ {node t}, c.memo.get? node = some (.done t) → ∀ {u}, Settles p known s node u → t = u
  references : ∀ {r : Reference Ty} {t}, c.resolved.get? r.key = some t →
    ∀ {u}, StandsFor p known s r u → t = u

/-- Every open node takes more than the given depth. -/
def OpenBeyond (depth references : Nat) (c : Checker) : Prop :=
  ∀ node, c.memo.get? node = some .inProgress →
    ∀ t, ¬ ((direct p known depth references).typeOf node).Yields s t

/-- A coherent checker with no open nodes but those of another one. -/
structure Keeps (c c' : Checker) : Prop where
  coherent : c'.Coherent p known s
  opens : ∀ {node}, c'.memo.get? node = some .inProgress → c.memo.get? node = some .inProgress

variable {p known s} {c c' c'' : Checker}

theorem Coherent.new : Coherent p known s { settings := s } :=
  ⟨rfl, fun h => by simp [Memo.get?] at h, fun h => by simp at h⟩

theorem Keeps.trans (h : c.Keeps p known s c') (h' : c'.Keeps p known s c'') : c.Keeps p known s c'' :=
  ⟨h'.coherent, fun hopen => h.opens (h'.opens hopen)⟩

/-- `Coherent` is about the settings and the entries of the memos, so whatever `Keeps` them keeps it. -/
theorem Coherent.keeps (h : c.Coherent p known s) (hsettings : c'.settings = c.settings)
    (hmemo : ∀ node, c'.memo.get? node = c.memo.get? node) (hresolved : c'.resolved = c.resolved) :
    c.Keeps p known s c' where
  coherent := {
    settings := hsettings.trans h.settings
    types := fun hdone => h.types (hmemo _ ▸ hdone)
    references := fun hkept => h.references (hresolved ▸ hkept) }
  opens := fun hopen => hmemo _ ▸ hopen

theorem Coherent.keeps_refl (h : c.Coherent p known s) : c.Keeps p known s c :=
  h.keeps rfl (fun _ => rfl) rfl

theorem OpenBeyond.mono {depth depth' references references' : Nat}
    (h : c.OpenBeyond p known s depth references) (hdepth : depth' ≤ depth)
    (hreferences : references ≤ references') : c.OpenBeyond p known s depth' references' :=
  fun node hopen t hyields => h node hopen t (hyields.typeOf_mono hdepth hreferences)

theorem OpenBeyond.keeps {depth references : Nat} (h : c.OpenBeyond p known s depth references)
    (hkeeps : c.Keeps p known s c') : c'.OpenBeyond p known s depth references :=
  fun node hopen => h node (hkeeps.opens hopen)

/-! ### Opening and finishing a node -/

theorem Coherent.start (h : c.Coherent p known s) (node : NodeId) :
    Coherent p known s { c with memo := c.memo.start node } where
  settings := h.settings
  types := by
    intro other t hdone
    rw [Memo.get?_start] at hdone
    split at hdone
    · exact nomatch hdone
    · exact h.types hdone
  references := h.references

theorem OpenBeyond.start {depth references : Nat} (h : c.OpenBeyond p known s depth references) {node : NodeId}
    (hnode : ∀ t, ¬ ((direct p known depth references).typeOf node).Yields s t) :
    OpenBeyond p known s depth references { c with memo := c.memo.start node } := by
  intro other hopen
  rw [Memo.get?_start] at hopen
  split at hopen
  · next heq => exact heq ▸ hnode
  · exact h other hopen

/-- `finish` of a node with the type it `Settles` to, if it settles, `Keeps` the checker coherent. -/
theorem Keeps.finish {node : NodeId} (h : Keeps p known s { c with memo := c.memo.start node } c') {t : Ty}
    (hsettles : ∀ {u}, Settles p known s node u → t = u) :
    c.Keeps p known s { c' with memo := c'.memo.finish node t } := by
  -- only the entry of the node changes, and it is not open any more
  obtain ⟨slot, hslot, hget⟩ := c'.memo.get?_finish_cases node t
  refine ⟨⟨h.coherent.settings, fun {other u} hdone => ?_, h.coherent.references⟩, fun {other} hopen => ?_⟩
  · rw [hget] at hdone
    split at hdone
    · next heq =>
      subst heq
      obtain rfl | rfl := hslot
      · exact nomatch hdone
      · cases hdone
        exact hsettles
    · exact h.coherent.types hdone
  · rw [hget] at hopen
    split at hopen
    · obtain rfl | rfl := hslot <;> exact nomatch hopen
    · next hne =>
      have hstart := h.opens hopen
      rwa [Memo.get?_start, if_neg hne] at hstart

/-! ### Keeping what a named type stands for -/

/-- `keepResolved` with what every named type of its key `StandsFor` `Keeps` the checker coherent. -/
theorem Keeps.keepResolved (h : Keeps p known s { c with memo := c.memo.mark.2 } c') {mark : Mark}
    {r : Reference Ty} {t : Ty}
    (hstands : ∀ r' : Reference Ty, r'.key = r.key → ∀ u, StandsFor p known s r' u → t = u) :
    c.Keeps p known s (c'.keepResolved mark r.key t) := by
  unfold Checker.keepResolved
  split
  · exact ⟨⟨h.coherent.settings, h.coherent.types, h.coherent.references⟩, h.opens⟩
  · refine ⟨⟨h.coherent.settings, h.coherent.types, fun {r' u} hkept => ?_⟩, h.opens⟩
    rw [Table.get?_insert] at hkept
    split at hkept
    · next heq =>
      cases hkept
      exact fun {u} => hstands r' (by simpa using heq) u
    · exact h.coherent.references hkept

end Checker

/-! ## Questions that settle -/

/-- From a checker, a search finds nothing but a given answer and keeps the checker coherent. If it is to be
`total`, it finds an answer. -/
structure Infer.Follows {α : Type} (total : Prop) (x : Infer α) (w : α) (c : Checker) : Prop where
  sound : ∀ {v c'}, x.run c = .ok (v, c') → v = w ∧ c.Keeps p known s c'
  total : total → ∃ v c', x.run c = .ok (v, c')

/-- A search that follows the answer of another one which looks at the settings only, from coherent checkers
whose open nodes are out of reach. -/
def Lockstep.tracks (total : Prop) (depth references : Nat) : Lockstep Checker Checker where
  Rel x y := Infer.Indifferent s y ∧ ∀ {w}, Infer.Yields s y w → ∀ {c : Checker}, c.Coherent p known s →
    c.OpenBeyond p known s depth references → Infer.Follows p known s total x w c
  pure a := by
    refine ⟨(Lockstep.indifferent s).pure a, fun {w} hyields {c} hc hopen => ?_⟩
    obtain ⟨c₀, hrun, -⟩ := hyields { settings := s } rfl
    obtain ⟨rfl, -⟩ := Search.run_pure_eq_ok.mp hrun
    refine ⟨fun {v c'} h => ?_, fun _ => ⟨w, c, rfl⟩⟩
    obtain ⟨rfl, rfl⟩ := Search.run_pure_eq_ok.mp h
    exact ⟨rfl, hc.keeps_refl⟩
  throw fault := by
    refine ⟨(Lockstep.indifferent s).throw fault, fun {w} hyields => ?_⟩
    obtain ⟨c₀, hrun, -⟩ := hyields { settings := s } rfl
    exact nomatch hrun
  bind := by
    intro α β x y k l hx hk
    refine ⟨hx.1.bind fun a => (hk a).1, fun {w} hyields {c} hc hopen => ?_⟩
    obtain ⟨v, hv, hw⟩ := (hx.1.yields_bind fun a => (hk a).1).mp hyields
    -- the first search leaves a coherent checker, whose open nodes are still out of reach
    have hfirst := hx.2 hv hc hopen
    have hrest {c₁ : Checker} (hkeeps : c.Keeps p known s c₁) :=
      (hk v).2 hw hkeeps.coherent (hopen.keeps hkeeps)
    refine ⟨fun {u c'} hrun => ?_, fun htotal => ?_⟩
    · obtain ⟨a, c₁, ha, hu⟩ := Search.run_bind_eq_ok.mp hrun
      obtain ⟨rfl, hkeeps⟩ := hfirst.sound ha
      obtain ⟨rfl, hkeeps'⟩ := (hrest hkeeps).sound hu
      exact ⟨rfl, hkeeps.trans hkeeps'⟩
    · obtain ⟨a, c₁, ha⟩ := hfirst.total htotal
      obtain ⟨rfl, hkeeps⟩ := hfirst.sound ha
      obtain ⟨u, c', hu⟩ := (hrest hkeeps).total htotal
      exact ⟨u, c', Search.run_bind_eq_ok.mpr ⟨a, c₁, ha, hu⟩⟩

variable {p known s}

namespace Lockstep

variable {total : Prop} {depth references : Nat}

theorem tracks_mono {depth' references' : Nat} (hdepth : depth ≤ depth') (hreferences : references' ≤ references)
    {α : Type} {x y : Infer α} (h : (tracks p known s total depth references).Rel x y) :
    (tracks p known s total depth' references').Rel x y :=
  ⟨h.1, fun hyields _ hc hopen => h.2 hyields hc (hopen.mono hdepth hreferences)⟩

theorem tracks_exhausted {α : Type} (x : Infer α) :
    (tracks p known s total depth references).Rel x Search.exhausted :=
  ⟨(indifferent s).exhausted, fun hyields => absurd hyields Infer.not_yields_exhausted⟩

theorem tracks_effects : (tracks p known s total depth references).Effects := by
  refine .of_aside fun {α x} haside => ⟨haside.indifferent s, fun {w} hyields {c} hc _ => ?_⟩
  obtain ⟨answer, hanswer⟩ := haside
  obtain ⟨c₁, hrun, hsettings, hmemo, hresolved⟩ := hanswer c
  refine ⟨fun {v c'} hrun' => ?_, fun _ => ⟨_, c₁, hrun⟩⟩
  obtain ⟨rfl, rfl⟩ := Prod.mk.inj (Except.ok.inj (hrun'.symm.trans hrun))
  refine ⟨(hyields.settings hc.settings hrun').1, hc.keeps hsettings (fun _ => ?_) hresolved⟩
  rw [hmemo]

end Lockstep

namespace Typing

variable {total : Prop} {depth references : Nat} {q : Queries}

/-- `typeOf` of a node that settles tracks `direct`. The node is opened at the least depth at which it settles, so the
questions of its rule do not come back to it. -/
theorem typeOf_tracks
    (hq : ∀ below ≤ depth, q.InStep (.tracks p known s total below references) (direct p known below references))
    (node : NodeId) :
    (Lockstep.tracks p known s total (depth + 1) references).Rel (typeOf p q node)
      ((direct p known (depth + 1) references).typeOf node) := by
  refine ⟨(direct_indifferent (depth + 1) references).typeOf node, fun {w} hyields {c} hc hopen => ?_⟩
  have hsettles : Settles p known s node w := ⟨_, _, hyields⟩
  cases hentry : c.memo.get? node with
  | some entry =>
    cases entry with
    | inProgress => exact absurd hyields (hopen node hentry w)
    | done t =>
      obtain rfl := hc.types hentry hsettles
      refine ⟨fun {v c'} hrun => ?_, fun _ => ⟨t, c, typeOf_run_done hentry⟩⟩
      rw [typeOf_run_done hentry] at hrun
      obtain ⟨rfl, rfl⟩ := Prod.mk.inj (Except.ok.inj hrun)
      exact ⟨rfl, hc.keeps_refl⟩
  | none =>
    -- below the least depth at which the node settles it is out of reach, as an open node has to be
    obtain ⟨least, hlt, hleast, hbelow⟩ := hyields.least
    obtain ⟨form, t, hform, ht, rfl⟩ := yields_ruleType (direct_indifferent least references) hleast
    have hrule := ruleFor_rel (hq least (by omega)) p Lockstep.tracks_effects node form
    have hopen' := (hopen.mono (Nat.le_of_lt hlt) (Nat.le_refl references)).start hbelow
    have hfollows := hrule.2 ht (hc.start node) hopen'
    refine ⟨fun {v c'} hrun => ?_, fun htotal => ?_⟩
    · obtain ⟨form', t', c₁, hform', hrun', rfl, rfl⟩ := (typeOf_run_absent hentry).mp hrun
      obtain rfl := Except.ok.inj (hform.symm.trans hform')
      obtain ⟨rfl, hkeeps⟩ := hfollows.sound hrun'
      exact ⟨rfl, hkeeps.finish hsettles.unique⟩
    · obtain ⟨t', c₁, hrun⟩ := hfollows.total htotal
      exact ⟨_, _, (typeOf_run_absent hentry).mpr ⟨form, t', c₁, hform, hrun, rfl, rfl⟩⟩

/-- `permitResolve` of a named type that stands for something tracks `direct`. -/
theorem permitResolve_tracks (hkeys : KeysAgree p known s) {around : Nat} (haround : total → around ≤ references)
    (hq : q.InStep (.tracks p known s total depth (references + 1)) (direct p known depth (references + 1)))
    (r : Reference Ty) :
    (Lockstep.tracks p known s total (depth + 1) references).Rel (permitResolve p q known around r)
      ((direct p known (depth + 1) references).resolve r) := by
  refine ⟨(direct_indifferent (depth + 1) references).resolve r, fun {w} hyields {c} hc hopen => ?_⟩
  have hstands : StandsFor p known s r w := ⟨_, _, hyields⟩
  obtain ⟨⟨hknown, hlt⟩, hexpand⟩ := yields_permitExpand (direct_indifferent depth (references + 1)) hyields
  cases hentry : c.resolved.get? r.key with
  | some t =>
    obtain rfl := hc.references hentry hstands
    refine ⟨fun {v c'} hrun => ?_, fun _ => ⟨t, c, run_permitResolve.mpr ⟨?_, resolve_run_known hentry⟩⟩⟩
    · have hrun' := (run_permitResolve.mp hrun).2
      rw [resolve_run_known hentry] at hrun'
      obtain ⟨rfl, rfl⟩ := Prod.mk.inj (Except.ok.inj hrun')
      exact ⟨rfl, hc.keeps_refl⟩
    · intro hnone
      exact nomatch hentry.symm.trans hnone
  | none =>
    have hmark : c.Keeps p known s { c with memo := c.memo.mark.2 } := hc.keeps rfl (fun _ => rfl) rfl
    have hopen' := (hopen.mono (Nat.le_succ depth) (Nat.le_succ references)).keeps hmark
    have hfollows := (expand_rel hq p Lockstep.tracks_effects r).2 hexpand hmark.coherent hopen'
    refine ⟨fun {v c'} hrun => ?_, fun htotal => ?_⟩
    · obtain ⟨hpermitted, hrun'⟩ := run_permitResolve.mp hrun
      have hdepth := Nat.not_le.mpr (hpermitted hentry).2
      obtain ⟨c₁, hrun₁, rfl⟩ := (resolve_run_new hentry hdepth).mp hrun'
      obtain ⟨rfl, hkeeps⟩ := hfollows.sound hrun₁
      -- the entry will be used for every named type of this key, and they all stand for the same
      refine ⟨rfl, hkeeps.keepResolved fun r' hkey u hu => ?_⟩
      exact hstands.unique (hkeys _ _ hu.isKnown hknown hkey u hu)
    · have haround' : around < c.settings.maxReferenceDepth := by
        rw [hc.settings]
        exact Nat.lt_of_le_of_lt (haround htotal) hlt
      obtain ⟨v, c₁, hrun⟩ := hfollows.total htotal
      exact ⟨v, _, run_permitResolve.mpr ⟨fun _ => ⟨hknown, haround'⟩,
        (resolve_run_new hentry (Nat.not_le.mpr haround')).mpr ⟨c₁, hrun, rfl⟩⟩⟩

end Typing

/-- `guarded` answers every question that settles as `direct` does without a memo. It finds the answer if it may go as
deep as the rules. -/
theorem guarded_tracks (hkeys : KeysAgree p known s) {total : Prop} {depth around below references : Nat}
    (htotal : total → below ≤ depth ∧ around ≤ references) :
    (guarded p known depth around).InStep (.tracks p known s total below references)
      (direct p known below references) := by
  induction depth generalizing around below references with
  | zero =>
    cases below with
    | zero => exact Queries.inStep_exhausted Lockstep.tracks_exhausted _
    | succ below =>
      -- without any depth every question is refused, which is fine unless the answers have to be total
      have hnone {α : Type} {y : Infer α} (hy : Infer.Indifferent s y) :
          (Lockstep.tracks p known s total (below + 1) references).Rel Search.exhausted y :=
        ⟨hy, fun _ _ _ _ => ⟨nofun, fun h => absurd (htotal h).1 (by omega)⟩⟩
      have h : (direct p known (below + 1) references).InStep (.indifferent s) _ := direct_indifferent _ _
      exact ⟨fun _ => hnone (h.typeOf _), fun _ => hnone (h.resolve _), fun _ => hnone (h.expected _),
        fun _ => hnone (h.common _), fun _ _ => hnone (h.member _ _), fun _ _ _ => hnone (h.compare _ _ _)⟩
  | succ depth ih =>
    cases below with
    | zero => exact Queries.inStep_exhausted Lockstep.tracks_exhausted _
    | succ below =>
      have hq : ∀ n ≤ below, (guarded p known depth around).InStep (.tracks p known s total n references)
          (direct p known n references) := by
        intro n hn
        refine ih fun h => ?_
        have := htotal h
        omega
      have hinner : (guarded p known depth (around + 1)).InStep
          (.tracks p known s total below (references + 1)) (direct p known below (references + 1)) := by
        refine ih fun h => ?_
        have := htotal h
        omega
      exact Queries.above_inStep
        ((hq below (Nat.le_refl _)).mono (Lockstep.tracks_mono (Nat.le_succ below) (Nat.le_refl _)))
        (Typing.typeOf_tracks hq) (Typing.permitResolve_tracks hkeys (fun h => (htotal h).2) hinner)

/-! ## Questions that do not settle -/

/-- Searches that keep a checker coherent while no open node settles, as a lockstep. -/
def Lockstep.coherent (p : Tree) (known : Reference Ty → Bool) (s : Settings) : Lockstep Checker Checker where
  Rel x _ := ∀ c : Checker, c.Coherent p known s → (∀ depth references, c.OpenBeyond p known s depth references) →
    ∀ v c', x.run c = .ok (v, c') → c.Keeps p known s c'
  pure a := by
    intro c hc _ v c' hrun
    obtain ⟨-, rfl⟩ := Search.run_pure_eq_ok.mp hrun
    exact hc.keeps_refl
  throw fault := by
    intro c _ _ v c' hrun
    exact nomatch hrun
  bind := by
    intro α β x y k l hx hk c hc hopen w c' hrun
    obtain ⟨v, c₁, hv, hw⟩ := Search.run_bind_eq_ok.mp hrun
    have hkeeps := hx c hc hopen v c₁ hv
    have hopen' := fun depth references => (hopen depth references).keeps hkeeps
    exact hkeeps.trans (hk v c₁ hkeeps.coherent hopen' w c' hw)

theorem Lockstep.coherent_effects : (Lockstep.coherent p known s).Effects := by
  refine .of_aside fun {α x} haside c hc _ v c' hrun => ?_
  obtain ⟨answer, hanswer⟩ := haside
  obtain ⟨c₁, hrun₁, hsettings, hmemo, hresolved⟩ := hanswer c
  obtain ⟨-, rfl⟩ := Prod.mk.inj (Except.ok.inj (hrun.symm.trans hrun₁))
  refine hc.keeps hsettings (fun _ => ?_) hresolved
  rw [hmemo]

namespace Typing

variable {q : Queries} (hq : q.InStep (.coherent p known s) q) {c c' : Checker} (hc : c.Coherent p known s)
  (hopen : ∀ depth references, c.OpenBeyond p known s depth references) {v : Ty}

include hq hc hopen

/-- `typeOf` of a node that does not settle `Keeps` the checker coherent in any way it is typed. -/
theorem typeOf_keeps {node : NodeId} (hnode : ∀ t, ¬ Settles p known s node t)
    (hrun : (typeOf p q node).run c = .ok (v, c')) : c.Keeps p known s c' := by
  obtain ⟨-, rfl⟩ | ⟨-, rfl⟩ | ⟨-, form, t, c₁, -, hrule, rfl, rfl⟩ := typeOf_run_cases hrun
  · exact hc.keeps_refl
  · exact hc.keeps rfl (c.memo.get?_observe node) rfl
  · have hopen' (depth references : Nat) :=
      (hopen depth references).start fun t h => hnode t ⟨depth, references, h⟩
    have hkeeps := ruleFor_rel hq p Lockstep.coherent_effects node form _ (hc.start node) hopen' _ _ hrule
    exact hkeeps.finish fun {u} hu => absurd hu (hnode u)

/-- `permitResolve` of a named type that stands for nothing `Keeps` the checker coherent. -/
theorem permitResolve_keeps (hkeys : KeysAgree p known s) {around : Nat} {r : Reference Ty}
    (hr : ∀ t, ¬ StandsFor p known s r t) (hrun : (permitResolve p q known around r).run c = .ok (v, c')) :
    c.Keeps p known s c' := by
  obtain ⟨hpermitted, hrun⟩ := run_permitResolve.mp hrun
  obtain ⟨-, rfl⟩ | ⟨-, -, rfl⟩ | ⟨hnew, -, c₁, hexpand, rfl⟩ := resolve_run_cases hrun
  · exact hc.keeps_refl
  · exact hc.keeps_refl
  · have hmark : c.Keeps p known s { c with memo := c.memo.mark.2 } := hc.keeps rfl (fun _ => rfl) rfl
    have hopen' (depth references : Nat) := (hopen depth references).keeps hmark
    have hkeeps := expand_rel hq p Lockstep.coherent_effects r _ hmark.coherent hopen' _ _ hexpand
    -- another named type with this key stands for nothing either
    exact hkeeps.keepResolved fun r' hkey u hu =>
      absurd (hkeys r' r hu.isKnown (hpermitted hnew).1 hkey u hu) (hr u)

end Typing

/-- `guarded` keeps a checker coherent, whether its questions settle or not. -/
theorem guarded_coherent (hkeys : KeysAgree p known s) (depth around : Nat) :
    (guarded p known depth around).InStep (.coherent p known s) (guarded p known depth around) := by
  -- A question that settles is covered by `guarded_tracks`, without asking for its totality.
  have hsettled (depth around below references : Nat) :
      (guarded p known depth around).InStep (.tracks p known s False below references)
        (direct p known below references) :=
    guarded_tracks hkeys False.elim
  induction depth generalizing around with
  | zero => exact Queries.exhausted_inStep
  | succ depth ih =>
    refine Queries.above_inStep (ih around) (fun node c hc hopen v c' hrun => ?_) fun r c hc hopen v c' hrun => ?_
    · by_cases hnode : ∃ t, Settles p known s node t
      · obtain ⟨t, below, references, hyields⟩ := hnode
        have htracks := (hsettled (depth + 1) around below references).typeOf node
        exact ((htracks.2 hyields hc (hopen below references)).sound hrun).2
      · exact Typing.typeOf_keeps (ih around) hc hopen (fun t ht => hnode ⟨t, ht⟩) hrun
    · by_cases hr : ∃ t, StandsFor p known s r t
      · obtain ⟨t, below, references, hyields⟩ := hr
        have htracks := (hsettled (depth + 1) around below references).resolve r
        exact ((htracks.2 hyields hc (hopen below references)).sound hrun).2
      · exact Typing.permitResolve_keeps (ih (around + 1)) hc hopen hkeys (fun t ht => hr ⟨t, ht⟩) hrun

end Ascribe
