import Ascribe.Proofs.Checker.Growth
import Ascribe.Proofs.Memo.Dependence
import Ascribe.Proofs.Typing.Direct
import Ascribe.Proofs.Typing.Ensures.Rules

/-!
# Searches that come back to anchors

A search comes back to a node while its type is being found if the type can only be said in terms of itself. It is
handed a placeholder then, which the rules pass on, leave out, or put into other types. This module says which types are
free of it in the end.

The nodes that a search may come back to are its anchors. If all of them end up with a type that does not mention the
placeholder, then so does every node. For let the innermost open node be no anchor, and untainted when it is finished.
No answer to its rule depended on a node that was still open (`Memo.Stirred`), so each was given by a rule all of whose
answers were settled, and rules do not make up the placeholder.

To say this, the search is run twice. The answers `anchored` are those of the checker where it comes back to anchors
only; the answers `calm` are those of `anchored` that do not depend on a placeholder. Every search with the former is
one with the latter, unless what it finds may depend on a placeholder (`Lockstep.steadily`), and what is found with the
latter is settled.

## Key results

- `answers_refines_anchored`: the answers are the anchored answers wherever the latter exist
- `Typing.anchoredTypeOf_advancing`, `Typing.settledResolve_advancing`: the two memoised questions
- `anchored_calm`: an anchored search is calm, unless what is found may depend on a placeholder
- `anchored_typeOf_advancing`: a type that is found in an anchored search is settled, unless it may depend on a
  placeholder
-/

namespace Ascribe

variable {anchor : NodeId → Bool} {p : Tree} {c c' c₁ : Checker}

/-! ## Anchored answers -/

/-- Whether a node is open. -/
def Memo.isOpen (m : Memo) (node : NodeId) : Bool :=
  match m.get? node with
  | some .inProgress => true
  | _ => false

theorem Memo.isOpen_iff {m : Memo} {node : NodeId} : m.isOpen node = true ↔ m.get? node = some .inProgress := by
  unfold isOpen
  split <;> simp_all

namespace Typing

/-- The type of a node through the memo, unless it is open and no anchor. -/
def anchoredTypeOf (anchor : NodeId → Bool) (p : Tree) (q : Queries) (node : NodeId) : Infer Ty := do
  if (← get).memo.isOpen node && !anchor node then Search.exhausted else typeOf p q node

/-- What a named type stands for through the memo, unless its arguments mention the placeholder. -/
def settledResolve (p : Tree) (q : Queries) (references : Nat) (r : Reference Ty) : Infer Ty :=
  if r.args.all Ty.isSettled then resolve p q references r else Search.exhausted

variable {q : Queries} {v : Ty}

theorem run_anchoredTypeOf {node : NodeId} :
    (anchoredTypeOf anchor p q node).run c = .ok (v, c') ↔
      (c.memo.get? node = some .inProgress → anchor node = true) ∧ (typeOf p q node).run c = .ok (v, c') := by
  simp only [anchoredTypeOf, StateT.run_bind, StateT.run_get, pure_bind]
  rw [← Memo.isOpen_iff]
  cases c.memo.isOpen node with
  | false => simp
  | true =>
    cases anchor node with
    | true => simp
    | false =>
      simp only [Bool.and_self, Bool.not_false, if_true]
      constructor
      · intro h
        cases h
      · rintro ⟨h, -⟩
        cases h trivial

theorem run_settledResolve {references : Nat} {r : Reference Ty} :
    (settledResolve p q references r).run c = .ok (v, c') ↔
      (∀ arg ∈ r.args, arg.isSettled = true) ∧ (resolve p q references r).run c = .ok (v, c') := by
  unfold settledResolve
  rw [← List.all_eq_true]
  split
  · next hargs => simp [hargs]
  · next hargs =>
    constructor
    · intro h
      cases h
    · rintro ⟨h, -⟩
      exact absurd h hargs

end Typing

/-- The answers of a search that comes back to anchors only, and that resolves a named type only if its arguments do not
mention the placeholder. -/
def anchored (anchor : NodeId → Bool) (p : Tree) : Nat → Nat → Queries
  | 0, _ => .exhausted
  | depth + 1, references =>
    .above p (fun node => Typing.anchoredTypeOf anchor p (anchored anchor p depth references) node)
      (fun r => Typing.settledResolve p (anchored anchor p depth (references + 1)) references r)
      fun _ => anchored anchor p depth references

/-- `answers` are those of `anchored` wherever the latter exist. -/
theorem answers_refines_anchored (anchor : NodeId → Bool) (p : Tree) (depth references : Nat) :
    (answers p depth references).InStep .refines (anchored anchor p depth references) := by
  induction depth generalizing references with
  | zero => exact Queries.inStep_exhausted Lockstep.refines_exhausted _
  | succ depth ih =>
    rw [answers_succ]
    refine Queries.above_inStep (ih references) (fun node c v c' hrun => ?_) fun r c v c' hrun => ?_
    · exact Typing.typeOf_refines (ih references) node c v c' (Typing.run_anchoredTypeOf.mp hrun).2
    · exact Typing.resolve_refines (ih (references + 1)) references r c v c' (Typing.run_settledResolve.mp hrun).2

/-! ## Steady checkers -/

namespace Checker

/-- The types that a checker keeps do not mention the placeholder. -/
structure Settled (c : Checker) : Prop where
  types : ∀ {node t}, c.memo.get? node = some (.done t) → t.isSettled = true
  resolved : ∀ {key t}, c.resolved.get? key = some t → t.isSettled = true

/-- The types that a checker keeps for anchors do not mention the placeholder. -/
def SettlesAnchors (anchor : NodeId → Bool) (c : Checker) : Prop :=
  ∀ {node t}, anchor node = true → c.memo.get? node = some (.done t) → t.isSettled = true

theorem SettlesAnchors.of_grows (h : c'.SettlesAnchors anchor) (hgrows : c.Grows c') : c.SettlesAnchors anchor :=
  fun hanchor hdone => h hanchor (hgrows.memo.done hdone)

/-- A checker in the course of an anchored search. -/
structure Steady (anchor : NodeId → Bool) (c : Checker) : Prop extends c.Settled where
  consistent : c.memo.Consistent
  layered : c.memo.Layered anchor

theorem steady_indifferent : Indifferent (Steady anchor) := by
  intro c c' _ hmemo hresolved h
  refine ⟨⟨fun hdone => ?_, fun hkept => ?_⟩, ?_, ?_⟩
  · exact h.types (hmemo ▸ hdone)
  · exact h.resolved (hresolved ▸ hkept)
  · rw [hmemo]
    exact h.consistent
  · rw [hmemo]
    exact h.layered

/-- One checker goes over into another in the course of an anchored search. Something holds after that, unless what is
found then may depend on a placeholder. -/
structure Advances (anchor : NodeId → Bool) (c c' : Checker) (P : Prop) : Prop where
  steady : c'.Steady anchor
  moves : c.memo.Moves c'.memo
  holds : c'.memo.Stirred anchor ∨ P

end Checker

/-- Something holds of what a search does in the course of an anchored one, unless what it finds may depend on a
placeholder, and if the anchors that it finishes are settled. -/
structure Infer.Advancing {α : Type} (anchor : NodeId → Bool) (x : Infer α) (P : Checker → α → Checker → Prop) :
    Prop where
  growing : x.Growing
  advances : ∀ {c v c'}, x.run c = .ok (v, c') → c.Steady anchor → c'.SettlesAnchors anchor →
    c.Advances anchor c' (P c v c')

/-- A search and a search that does the same, unless what is found may depend on a placeholder. -/
def Lockstep.steadily (anchor : NodeId → Bool) : Lockstep Checker Checker where
  Rel x y := Infer.Advancing anchor x fun c v c' => y.run c = .ok (v, c')
  pure a := by
    refine ⟨Lockstep.growing.pure a, fun hrun hc _ => ?_⟩
    obtain ⟨rfl, rfl⟩ := Search.run_pure_eq_ok.mp hrun
    exact ⟨hc, .refl _, .inr rfl⟩
  throw fault := by
    refine ⟨Lockstep.growing.throw fault, fun hrun => ?_⟩
    cases hrun
  bind := by
    intro α β x y k l hx hk
    have hgrowing (a : α) : Infer.Growing (k a) := (hk a).growing
    refine ⟨Lockstep.growing.bind (y := x) (l := k) hx.growing hgrowing, fun {c w c'} hrun hc hanchors => ?_⟩
    obtain ⟨v, c₁, hv, hw⟩ := Search.run_bind_eq_ok.mp hrun
    have hfirst := hx.advances hv hc (hanchors.of_grows (hgrowing v c₁ w c' hw))
    have hsecond := (hk v).advances hw hfirst.steady hanchors
    refine ⟨hsecond.steady, hfirst.moves.trans hsecond.moves, ?_⟩
    -- what depends on a placeholder does so from then on
    rcases hfirst.holds with hstirred | hsame
    · exact .inl (hsecond.moves.stirred hstirred)
    · exact hsecond.holds.imp_right fun hrest => Search.run_bind_eq_ok.mpr ⟨v, c₁, hsame, hrest⟩

theorem Lockstep.steadily_effects : (Lockstep.steadily anchor).Effects := by
  refine .of_aside fun {α x} haside => ⟨haside.growing, fun {c v c'} hrun hc _ => ?_⟩
  obtain ⟨answer, hanswer⟩ := haside
  obtain ⟨c₁, hrun₁, hsettings, hmemo, hresolved⟩ := hanswer c
  obtain ⟨-, rfl⟩ := Prod.mk.inj (Except.ok.inj (hrun.symm.trans hrun₁))
  exact ⟨Checker.steady_indifferent hsettings hmemo hresolved hc, hmemo ▸ .refl _, .inr hrun⟩

/-! ## The questions that go through a memo -/

namespace Checker

variable {node : NodeId} {t : Ty} {P Q : Prop}

theorem Advances.mono (h : c.Advances anchor c' P) (hP : P → Q) : c.Advances anchor c' Q :=
  ⟨h.steady, h.moves, h.holds.imp_right hP⟩

theorem Steady.start (h : c.Steady anchor) (habsent : c.memo.get? node = none) :
    Steady anchor { c with memo := c.memo.start node } where
  types {other t} hdone := by
    rw [Memo.get?_start] at hdone
    split at hdone
    · cases hdone
    · exact h.types hdone
  resolved := h.resolved
  consistent := h.consistent.start habsent
  layered := h.layered.start node

/-- `observe` of an anchor `Advances` a checker that is `Steady`. -/
theorem Steady.observe (h : c.Steady anchor) (hopen : c.memo.get? node = some .inProgress)
    (hanchor : anchor node = true) (P : Prop) :
    c.Advances anchor { c with memo := c.memo.observe node } P := by
  have hmem := (h.consistent.inProgress node).mp hopen
  refine ⟨⟨⟨fun hdone => ?_, h.resolved⟩, ?_, ?_⟩, .observe hmem, .inl (.observe hmem hanchor)⟩
  · exact h.types (Memo.get?_observe c.memo node _ ▸ hdone)
  · exact h.consistent.observe node
  · exact h.layered.observe hmem hanchor

/-- `Advances` holds from `start` to `finish` of a node: what is kept is settled, and what is thrown away may depend on
a placeholder. -/
theorem Advances.finish (h : Advances anchor { c with memo := c.memo.start node } c₁ (t.isSettled = true))
    (hanchors : SettlesAnchors anchor { c₁ with memo := c₁.memo.finish node t }) :
    c.Advances anchor { c₁ with memo := c₁.memo.finish node t } (t.isSettled = true) := by
  obtain ⟨frame, rest, hframes, hnode, -, -⟩ := h.moves.frames_start
  obtain ⟨-, -, hget⟩ := Memo.finish_of_frames hframes node t
  have hnodes : c₁.memo.frames.map Frame.node = node :: rest.map Frame.node := by
    rw [hframes, List.map_cons, hnode]
  -- a frame that is neither tainted nor the one of an anchor was handed nothing that depends on a placeholder
  have hkept (htaint : frame.isTainted = false) : t.isSettled = true := by
    by_cases hanchor : anchor node = true
    · refine hanchors hanchor ?_
      dsimp only
      rw [hget, if_pos rfl, htaint]
      rfl
    · refine h.holds.resolve_left fun hstirred => hanchor ?_
      have hloose := hstirred.isLoose hframes
      rwa [Frame.isLoose, htaint, hnode, Bool.false_or] at hloose
  refine ⟨⟨⟨fun {other u} hdone => ?_, h.steady.resolved⟩, ?_, ?_⟩, h.moves.finish t, ?_⟩
  · dsimp only at hdone
    rw [hget] at hdone
    split at hdone
    · split at hdone
      · cases hdone
      · next htaint =>
        cases hdone
        exact hkept (Bool.eq_false_of_not_eq_true htaint)
    · exact h.steady.types hdone
  · exact h.steady.consistent.finish hnodes t
  · exact h.steady.layered.finish hframes node t
  · cases htaint : frame.isTainted with
    | true => exact .inl (.finish_of_tainted h.moves h.steady.layered hframes htaint t)
    | false => exact .inr (hkept htaint)

/-- `Advances` holds from `mark` to `keepResolved`, which keeps nothing that depends on a node open before. -/
theorem Advances.keepResolved (h : Advances anchor { c with memo := c.memo.mark.2 } c₁ (t.isSettled = true))
    (key : ReferenceKey) : c.Advances anchor (c₁.keepResolved c.memo.mark.1 key t) (t.isSettled = true) := by
  have hmemo := Checker.keepResolved_memo c₁ c.memo.mark.1 key t
  have hlength : c₁.memo.frames.length = c.memo.frames.length := h.moves.frames.length
  refine ⟨⟨⟨fun hdone => ?_, fun hkept => ?_⟩, ?_, ?_⟩, ?_, ?_⟩
  · rw [hmemo] at hdone
    exact h.steady.types hdone
  · unfold Checker.keepResolved at hkept
    split at hkept
    · exact h.steady.resolved hkept
    · next hleaked =>
      rw [Table.get?_insert] at hkept
      split at hkept
      · cases hkept
        -- what depends on a placeholder would have leaked
        refine h.holds.resolve_left fun hstirred => hleaked ?_
        have hreaches := hstirred.2
        rw [hlength] at hreaches
        rw [Bool.or_eq_true]
        exact .inl hreaches
      · exact h.steady.resolved hkept
  · rw [hmemo]
    exact h.steady.consistent.observedOutside _
  · rw [hmemo]
    exact h.steady.layered
  · rw [hmemo]
    exact h.moves.sinceMark
  · rw [hmemo]
    refine h.holds.imp_left fun hstirred => ⟨hstirred.1, ?_⟩
    show (Memo.lower c₁.memo.lowest c.memo.lowest).any (· < c₁.memo.frames.length) = true
    rw [Memo.any_lower, hstirred.2, Bool.true_or]

end Checker

theorem Queries.InStep.growing {q r : Queries} (h : q.InStep (.steadily anchor) r) : q.InStep .growing q :=
  ⟨fun node => (h.typeOf node).growing, fun ref => (h.resolve ref).growing, fun node => (h.expected node).growing,
    fun types => (h.common types).growing, fun t name => (h.member t name).growing,
    fun assumed a e => (h.compare assumed a e).growing⟩

namespace Typing

variable {q r : Queries} (hq : q.InStep (.steadily anchor) r) (hr : r.Ensures False .settled (Checker.Steady anchor))

include hq hr

/-- `anchoredTypeOf` is `Advancing`: the type it finds `isSettled`, unless it may depend on a placeholder. -/
theorem anchoredTypeOf_advancing (node : NodeId) :
    Infer.Advancing anchor (anchoredTypeOf anchor p q node) fun _ t _ => t.isSettled = true := by
  refine ⟨fun c v c' hrun => ?_, fun {c v c'} hrun hc hanchors => ?_⟩
  · exact typeOf_growing hq.growing node c v c' (run_anchoredTypeOf.mp hrun).2
  obtain ⟨hanchor, hrun⟩ := run_anchoredTypeOf.mp hrun
  obtain ⟨hdone, rfl⟩ | ⟨hopen, rfl⟩ | ⟨habsent, form, t, c₁, hform, hrule, rfl, rfl⟩ := typeOf_run_cases hrun
  · exact ⟨hc, .refl _, .inr (hc.types hdone)⟩
  · exact hc.observe hopen (hanchor hopen) _
  · have hrel := ruleFor_rel hq p Lockstep.steadily_effects node form
    -- what was kept for the anchors when the rule was done is still kept
    have hbefore : c₁.SettlesAnchors anchor := by
      intro other u hother hdone
      refine hanchors hother ?_
      obtain ⟨slot, -, hget⟩ := c₁.memo.get?_finish_cases node (t.orOrigin node)
      have hopen : c₁.memo.get? node = some .inProgress := by
        rw [(hrel.growing _ _ _ hrule).memo.inProgress, Memo.get?_start, if_pos rfl]
      have hne : other ≠ node := by
        rintro rfl
        cases hopen.symm.trans hdone
      dsimp only
      rw [hget, if_neg hne, hdone]
    have hadvances := hrel.advances hrule (hc.start habsent) hbefore
    refine Checker.Advances.finish (hadvances.mono fun hsame => ?_) hanchors
    have hrules :=
      ruleFor_ensures hr p.inScope_settled Checker.steady_indifferent.logging (Tree.form?_eq_some_of_form hform)
    obtain ⟨-, ht⟩ := (hrules _ (hc.start habsent)).1 _ _ hsame
    exact Ty.isSettled_iff_inScope.mpr (ht.orOrigin rfl)

/-- `settledResolve` is `Advancing`: the type it finds `isSettled`, unless it may depend on a placeholder. -/
theorem settledResolve_advancing (references : Nat) (ref : Reference Ty) :
    Infer.Advancing anchor (settledResolve p q references ref) fun _ t _ => t.isSettled = true := by
  refine ⟨fun c v c' hrun => ?_, fun {c v c'} hrun hc hanchors => ?_⟩
  · exact resolve_growing hq.growing references ref c v c' (run_settledResolve.mp hrun).2
  obtain ⟨hargs, hrun⟩ := run_settledResolve.mp hrun
  obtain ⟨hkept, rfl⟩ | ⟨hnew, hdeep, rfl⟩ | ⟨hnew, -, c₁, hexpand, rfl⟩ := resolve_run_cases hrun
  · exact ⟨hc, .refl _, .inr (hc.resolved hkept)⟩
  · rw [resolve_run_deep hnew hdeep] at hrun
    obtain ⟨rfl, -⟩ := Prod.mk.inj (Except.ok.inj hrun)
    exact ⟨hc, .refl _, .inr (Ty.isSettled_iff_inScope.mpr (Ty.error_inScope rfl))⟩
  · have hmark : Checker.Steady anchor { c with memo := c.memo.mark.2 } :=
      ⟨⟨hc.types, hc.resolved⟩, hc.consistent.mark, hc.layered⟩
    have hbefore : c₁.SettlesAnchors anchor := by
      intro other u hother hdone
      refine hanchors hother ?_
      rw [Checker.keepResolved_memo]
      exact hdone
    have hadvances := (expand_rel hq p Lockstep.steadily_effects ref).advances hexpand hmark hbefore
    refine Checker.Advances.keepResolved (hadvances.mono fun hsame => ?_) ref.key
    have href : (Shape.ref ref).InScope .settled :=
      Shape.inScope_ref.mpr ⟨rfl, fun arg harg => Ty.isSettled_iff_inScope.mp (hargs arg harg)⟩
    have hexpands := expand_ensures hr p.inScope_settled Checker.steady_indifferent.logging href
    obtain ⟨-, ht⟩ := (hexpands _ hmark).1 _ _ hsame
    exact Ty.isSettled_iff_inScope.mpr ht

end Typing

/-! ## Calm answers -/

section Calm

variable {α : Type} {x : Infer α}

open Classical in
/-- What a search finds, unless that may depend on a placeholder or an anchor is not settled. -/
noncomputable def Infer.calmly (anchor : NodeId → Bool) (x : Infer α) : Infer α := do
  let v ← x
  let c ← get
  if c.memo.Stirred anchor ∨ ¬ c.SettlesAnchors anchor then Search.exhausted else return v

theorem Infer.run_calmly {v : α} :
    (x.calmly anchor).run c = .ok (v, c') ↔
      x.run c = .ok (v, c') ∧ ¬ c'.memo.Stirred anchor ∧ c'.SettlesAnchors anchor := by
  simp only [calmly, Search.run_bind_eq_ok]
  constructor
  · rintro ⟨u, c₁, hu, d, c₂, hget, hrun⟩
    obtain ⟨rfl, rfl⟩ := Prod.mk.inj (Except.ok.inj hget)
    split at hrun
    · cases hrun
    · next hcalm =>
      obtain ⟨rfl, rfl⟩ := Search.run_pure_eq_ok.mp hrun
      rw [not_or, not_not] at hcalm
      exact ⟨hu, hcalm⟩
  · rintro ⟨hu, hstirred, hanchors⟩
    refine ⟨v, c', hu, c', c', rfl, ?_⟩
    rw [if_neg (by simp [hstirred, hanchors])]
    rfl

theorem Infer.Advancing.calmly {P : Checker → α → Checker → Prop} (h : x.Advancing anchor P) :
    (Lockstep.steadily anchor).Rel x (x.calmly anchor) := by
  refine ⟨h.growing, fun {c v c'} hrun hc hanchors => ?_⟩
  have hadvances := h.advances hrun hc hanchors
  refine ⟨hadvances.steady, hadvances.moves, ?_⟩
  by_cases hstirred : c'.memo.Stirred anchor
  · exact .inl hstirred
  · exact .inr (Infer.run_calmly.mpr ⟨hrun, hstirred, hanchors⟩)

theorem Infer.Advancing.ensures {P : α → Prop} (h : x.Advancing anchor fun _ v _ => P v) :
    (x.calmly anchor).Ensures False (Checker.Steady anchor) P := by
  refine fun c hc => ⟨fun v c' hrun => ?_, False.elim⟩
  obtain ⟨hrun, hstirred, hanchors⟩ := Infer.run_calmly.mp hrun
  have hadvances := h.advances hrun hc hanchors
  exact ⟨hadvances.steady, hadvances.holds.resolve_left hstirred⟩

end Calm

/-- The anchored answers that do not depend on a placeholder. -/
noncomputable def calm (anchor : NodeId → Bool) (p : Tree) : Nat → Nat → Queries
  | 0, _ => .exhausted
  | depth + 1, references =>
    .above p (fun node => ((anchored anchor p (depth + 1) references).typeOf node).calmly anchor)
      (fun r => Infer.calmly anchor ((anchored anchor p (depth + 1) references).resolve r))
      fun _ => calm anchor p depth references

/-- Searches that keep an invariant, as a lockstep. -/
def Lockstep.preserving (I : Checker → Prop) : Lockstep Checker Checker where
  Rel x _ := Search.Ensures False I x fun _ => True
  pure _ := .pure trivial
  throw _ := .throw
  bind hx hk := .bind hx fun a _ => hk a

/-- `Ensures False` holds of `exhausted` in any scope, since it finds nothing. -/
theorem Queries.exhausted_ensures {scope : Scope} {I : Checker → Prop} : exhausted.Ensures False scope I :=
  ⟨⟨fun _ => .throw, fun _ _ => .throw⟩, fun _ => .throw, fun _ => .throw, fun _ _ => .throw, fun _ => .throw⟩

/-- `anchored` answers as `calm` does unless what is found may depend on a placeholder, and what `calm` finds is
settled. -/
theorem anchored_calm (anchor : NodeId → Bool) (p : Tree) (depth references : Nat) :
    (anchored anchor p depth references).InStep (.steadily anchor) (calm anchor p depth references) ∧
      (calm anchor p depth references).InStep (.preserving (Checker.Steady anchor)) (calm anchor p depth references) ∧
      (calm anchor p depth references).Ensures False .settled (Checker.Steady anchor) := by
  induction depth generalizing references with
  | zero => exact ⟨Queries.exhausted_inStep, Queries.exhausted_inStep, Queries.exhausted_ensures⟩
  | succ depth ih =>
    obtain ⟨hstep, hkeeps, hcalm⟩ := ih references
    obtain ⟨hinner, -, hcalmInner⟩ := ih (references + 1)
    have htypeOf (node : NodeId) := Typing.anchoredTypeOf_advancing (p := p) hstep hcalm node
    have hresolve (r : Reference Ty) := Typing.settledResolve_advancing (p := p) hinner hcalmInner references r
    refine ⟨?_, ?_, ?_⟩
    · exact Queries.above_inStep hstep (fun node => (htypeOf node).calmly) fun r => (hresolve r).calmly
    · refine Queries.above_inStep hkeeps (fun node => ?_) fun r => ?_
      · exact (htypeOf node).ensures.mono fun _ _ => trivial
      · exact (hresolve r).ensures.mono fun _ _ => trivial
    · refine ⟨⟨fun {node} _ => ?_, fun {t r} _ _ => ?_⟩, ?_, ?_, ?_, ?_⟩
      · exact (htypeOf node).ensures.mono fun _ => Ty.isSettled_iff_inScope.mp
      · exact (hresolve r).ensures.mono fun _ => Ty.isSettled_iff_inScope.mp
      · exact Typing.common_ensures hcalm
      · exact fun ht => Typing.instanceMember_ensures hcalm ht _
      · exact fun _ _ => hkeeps.comparer.step _ _ _
      · exact fun _ => Typing.expected_ensures p.inScope_settled hcalm.toFindsIn fun _ hup => hcalm.expected hup

/-- `typeOf` of `anchored` is `Advancing`: the type it finds `isSettled`, unless it may depend on a placeholder. -/
theorem anchored_typeOf_advancing (anchor : NodeId → Bool) (p : Tree) (depth references : Nat) (node : NodeId) :
    Infer.Advancing anchor ((anchored anchor p depth references).typeOf node) fun _ t _ => t.isSettled = true := by
  cases depth with
  | zero => exact ⟨Lockstep.growing.throw _, fun hrun => by cases hrun⟩
  | succ depth =>
    obtain ⟨hstep, -, hcalm⟩ := anchored_calm anchor p depth references
    exact Typing.anchoredTypeOf_advancing hstep hcalm node

end Ascribe
