import Ascribe.Proofs.Checker.Stability
import Ascribe.Proofs.Memo.Consistency

/-!
# The books agree at every moment

The memo of a checker is consistent between the operations of a session and at every moment within one. To speak about
the moments within, the engine is watched: `watched` does something each time a question is asked and each time the memo
has changed, however deep inside. A watcher that gives up as soon as it sees books that do not agree (`Infer.inspect`)
never gives up: the watched engine finds what the engine finds, whatever the fault that it would give up with.

## Key results

- `watched_consistently`: nothing that is silent about consistent memos changes an answer by watching
- `Reached.always_consistent`: between operations, at every moment of a question, and at every moment of an invalidation
-/

namespace Ascribe

/-! ## Watching the engine -/

namespace Typing

variable (watch : Infer Unit) (p : Tree) (q : Queries)

/-- The type of a node through the memo, watched after each change of the memo. -/
def watchedTypeOf (node : NodeId) : Infer Ty := do
  let c ← get
  match c.memo.get? node with
  | some (.done t) => return t
  | some .inProgress =>
    set { c with memo := c.memo.observe node }
    watch
    return .placeholder
  | none =>
    let form ← Search.ofWalk (p.form node)
    set { c with memo := c.memo.start node }
    watch
    let t ← ruleFor p q node form
    let t := t.orOrigin node
    modify fun c => { c with memo := c.memo.finish node t }
    watch
    return t

/-- What a named type stands for through the memo, watched after each change of the memo. -/
def watchedResolve (depth : Nat) (r : Reference Ty) : Infer Ty := do
  let c ← get
  match c.resolved.get? r.key with
  | some t => return t
  | none =>
    if c.settings.maxReferenceDepth ≤ depth then return .error (.referenceDepth r.name)
    set { c with memo := c.memo.mark.2 }
    watch
    let t ← expand p q r
    modify (·.keepResolved c.memo.mark.1 r.key t)
    watch
    return t

end Typing

/-- Watch whenever a question is asked. -/
def Queries.watchedBy (watch : Infer Unit) (q : Queries) : Queries where
  typeOf node := do watch; q.typeOf node
  resolve r := do watch; q.resolve r
  expected node := do watch; q.expected node
  common types := do watch; q.common types
  member t name := do watch; q.member t name
  compare assumed actual expected := do watch; q.compare assumed actual expected

/-- The answers, watched whenever a question is asked and whenever the memo has changed. -/
def watched (watch : Infer Unit) (p : Tree) : Nat → Nat → Queries
  | 0, _ => Queries.exhausted.watchedBy watch
  | depth + 1, references =>
    Queries.watchedBy watch <|
      .above p (fun node => Typing.watchedTypeOf watch p (watched watch p depth references) node)
        (fun r => Typing.watchedResolve watch p (watched watch p depth (references + 1)) references r)
        fun _ => watched watch p depth references

/-- Two searches that find the same from consistent memos, and leave consistent ones. -/
def Lockstep.consistently : Lockstep Checker Checker where
  Rel x y := ∀ c, c.memo.Consistent →
    x.run c = y.run c ∧ ∀ v c', y.run c = .ok (v, c') → c'.memo.Consistent
  pure a := by
    intro c hc
    refine ⟨rfl, fun v c' h => ?_⟩
    obtain ⟨-, rfl⟩ := Search.run_pure_eq_ok.mp h
    exact hc
  throw fault := by
    intro c hc
    refine ⟨rfl, fun v c' h => ?_⟩
    cases h
  bind := by
    intro α β x y k l hx hk c hc
    obtain ⟨hsame, hkeeps⟩ := hx c hc
    rw [StateT.run_bind, StateT.run_bind, hsame]
    cases hfirst : y.run c with
    | error fault =>
      refine ⟨rfl, fun v c' h => ?_⟩
      cases h
    | ok found => exact hk found.1 found.2 (hkeeps found.1 found.2 hfirst)

theorem Lockstep.consistently_effects : Lockstep.consistently.Effects := by
  refine .of_aside fun {α x} haside c hc => ⟨rfl, fun v c' hrun => ?_⟩
  obtain ⟨answer, hanswer⟩ := haside
  obtain ⟨c₁, hrun₁, -, hmemo, -⟩ := hanswer c
  obtain ⟨-, rfl⟩ := Prod.mk.inj (Except.ok.inj (hrun.symm.trans hrun₁))
  rw [hmemo]
  exact hc

/-- `consistently` relates two searches that both find one answer and leave one consistent memo. -/
theorem Lockstep.consistently_of_runs {α : Type} {x y : Infer α} {c c' : Checker} {v : α}
    (hx : x.run c = .ok (v, c')) (hy : y.run c = .ok (v, c')) (hc' : c'.memo.Consistent) :
    x.run c = y.run c ∧ ∀ v c', y.run c = .ok (v, c') → c'.memo.Consistent := by
  refine ⟨hx.trans hy.symm, fun w c'' hw => ?_⟩
  obtain ⟨-, rfl⟩ := Prod.mk.inj (Except.ok.inj (hy.symm.trans hw))
  exact hc'

/-- A watcher that has nothing to say about consistent memos. -/
def Infer.Silent (watch : Infer Unit) : Prop :=
  ∀ c : Checker, c.memo.Consistent → watch.run c = .ok ((), c)

section Watching

variable {watch : Infer Unit} (hwatch : watch.Silent)

include hwatch

/-- A `Silent` search that is run before another one keeps `Lockstep.consistently`. -/
theorem Infer.Silent.before {α : Type} {x y : Infer α} (h : Lockstep.consistently.Rel x y) :
    Lockstep.consistently.Rel (do watch; x) y := by
  intro c hc
  rw [StateT.run_bind, hwatch c hc]
  exact h c hc

theorem Queries.InStep.watchedBy {q r : Queries} (h : q.InStep Lockstep.consistently r) :
    (q.watchedBy watch).InStep Lockstep.consistently r where
  typeOf node := hwatch.before (h.typeOf node)
  resolve r := hwatch.before (h.resolve r)
  expected node := hwatch.before (h.expected node)
  common types := hwatch.before (h.common types)
  member t name := hwatch.before (h.member t name)
  compare assumed actual expected := hwatch.before (h.compare assumed actual expected)

namespace Typing

variable {p : Tree} {q r : Queries} (h : q.InStep Lockstep.consistently r)

include h

/-- `typeOf` of an absent node opens, types and finishes it, and `watchedTypeOf` does the same. -/
theorem typeOf_consistently_absent (hgrows : r.InStep Lockstep.growing r) {node : NodeId} {c : Checker}
    (hc : c.memo.Consistent) (habsent : c.memo.get? node = none) :
    (watchedTypeOf watch p q node).run c = (typeOf p r node).run c ∧
      ∀ v c', (typeOf p r node).run c = .ok (v, c') → c'.memo.Consistent := by
  have hstart : (c.memo.start node).Consistent := hc.start habsent
  have hrel (form : Form) := ruleFor_rel h p Lockstep.consistently_effects node form
    { c with memo := c.memo.start node } hstart
  -- the node is innermost again when its rule is done
  have hfinish {form : Form} {t : Ty} {c₁ : Checker}
      (hrule : (ruleFor p r node form).run { c with memo := c.memo.start node } = .ok (t, c₁)) :
      (c₁.memo.finish node (t.orOrigin node)).Consistent := by
    have hnodes := (ruleFor_rel hgrows p Lockstep.growing_effects node form _ _ _ hrule).memo.nodes
    exact ((hrel form).2 t c₁ hrule).finish hnodes (t.orOrigin node)
  constructor
  · simp only [watchedTypeOf, typeOf, StateT.run_bind, StateT.run_get, StateT.run_set, StateT.run_modify, pure_bind,
      habsent]
    cases p.form node with
    | error fault => rfl
    | ok form =>
      show (watch.run _ >>= _) = ((ruleFor p r node form).run _ >>= _)
      rw [hwatch _ hstart]
      show ((ruleFor p q node form).run _ >>= _) = _
      rw [(hrel form).1]
      cases hrule : (ruleFor p r node form).run { c with memo := c.memo.start node } with
      | error fault => rfl
      | ok found =>
        show (watch.run _ >>= _) = _
        rw [hwatch _ (hfinish hrule)]
        rfl
  · intro v c' hrun
    obtain ⟨form, t, c₁, -, hrule, -, rfl⟩ := (typeOf_run_absent habsent).mp hrun
    exact hfinish hrule

theorem typeOf_consistently (hgrows : r.InStep Lockstep.growing r) (node : NodeId) :
    Lockstep.consistently.Rel (watchedTypeOf watch p q node) (typeOf p r node) := by
  intro c hc
  cases hentry : c.memo.get? node with
  | none => exact typeOf_consistently_absent hwatch h hgrows hc hentry
  | some entry =>
    cases entry with
    | inProgress =>
      apply Lockstep.consistently_of_runs _ (typeOf_run_open hentry) (hc.observe node)
      simp only [watchedTypeOf, StateT.run_bind, StateT.run_get, StateT.run_set, pure_bind, hentry]
      rw [hwatch _ (hc.observe node)]
      rfl
    | done t =>
      apply Lockstep.consistently_of_runs _ (typeOf_run_done hentry) hc
      simp only [watchedTypeOf, StateT.run_bind, StateT.run_get, pure_bind, hentry]
      rfl

/-- `resolve` of a new named type runs between a mark and asking for leaks, and `watchedResolve` does the same. -/
theorem resolve_consistently_new {depth : Nat} {named : Reference Ty} {c : Checker} (hc : c.memo.Consistent)
    (habsent : c.resolved.get? named.key = none) (hdepth : ¬ c.settings.maxReferenceDepth ≤ depth) :
    (watchedResolve watch p q depth named).run c = (resolve p r depth named).run c ∧
      ∀ v c', (resolve p r depth named).run c = .ok (v, c') → c'.memo.Consistent := by
  obtain ⟨hsame, hkeeps⟩ := expand_rel h p Lockstep.consistently_effects named
    { c with memo := c.memo.mark.2 } hc.mark
  have hkeep {t : Ty} {c₁ : Checker}
      (hexpand : (expand p r named).run { c with memo := c.memo.mark.2 } = .ok (t, c₁)) :
      (c₁.keepResolved c.memo.mark.1 named.key t).memo.Consistent := by
    rw [Checker.keepResolved_memo]
    exact (hkeeps t c₁ hexpand).observedOutside c.memo.mark.1
  constructor
  · rw [resolve_run_eq habsent hdepth]
    simp only [watchedResolve, StateT.run_bind, StateT.run_get, StateT.run_set, StateT.run_modify, pure_bind, habsent,
      if_neg hdepth]
    rw [hwatch _ hc.mark]
    show ((expand p q named).run _ >>= _) = _
    rw [hsame]
    cases hexpand : (expand p r named).run { c with memo := c.memo.mark.2 } with
    | error fault => rfl
    | ok found =>
      show (watch.run _ >>= _) = _
      rw [hwatch _ (hkeep hexpand)]
      rfl
  · intro v c' hrun
    obtain ⟨c₁, hexpand, rfl⟩ := (resolve_run_new habsent hdepth).mp hrun
    exact hkeep hexpand

theorem resolve_consistently (depth : Nat) (named : Reference Ty) :
    Lockstep.consistently.Rel (watchedResolve watch p q depth named) (resolve p r depth named) := by
  intro c hc
  cases hkept : c.resolved.get? named.key with
  | some t =>
    apply Lockstep.consistently_of_runs _ (resolve_run_known hkept) hc
    simp only [watchedResolve, StateT.run_bind, StateT.run_get, pure_bind, hkept]
    rfl
  | none =>
    by_cases hdepth : c.settings.maxReferenceDepth ≤ depth
    · apply Lockstep.consistently_of_runs _ (resolve_run_deep hkept hdepth) hc
      simp only [watchedResolve, StateT.run_bind, StateT.run_get, pure_bind, hkept, if_pos hdepth]
      rfl
    · exact resolve_consistently_new hwatch h hc hkept hdepth

end Typing

/-- `watched` gives the same answers as `answers` if what watches is silent about consistent memos. -/
theorem watched_consistently (p : Tree) (depth references : Nat) :
    (watched watch p depth references).InStep Lockstep.consistently (answers p depth references) := by
  induction depth generalizing references with
  | zero => exact Queries.exhausted_inStep.watchedBy hwatch
  | succ depth ih =>
    rw [answers_succ]
    apply Queries.InStep.watchedBy hwatch
    apply Queries.above_inStep (ih references)
    · exact Typing.typeOf_consistently hwatch (ih references) (answers_growing p depth references)
    · exact Typing.resolve_consistently hwatch (ih (references + 1)) references

end Watching

open Classical in
/-- Give up unless the books of the memo agree. -/
noncomputable def Infer.inspect (fault : Fault) : Infer Unit := do
  if (← get).memo.Consistent then return else throw fault

theorem Infer.inspect_silent (fault : Fault) : (Infer.inspect fault).Silent := by
  intro c hc
  simp only [Infer.inspect, StateT.run_bind, StateT.run_get, pure_bind, if_pos hc]
  rfl

/-! ## Sessions -/

theorem Query.ask_consistent (p : Tree) (query : Query) {c c' : Checker} (hc : c.memo.Consistent)
    (hrun : (query.ask p).run c = .ok ((), c')) : c'.memo.Consistent := by
  rw [run_ask] at hrun
  have hstep := watched_consistently (Infer.inspect_silent .tooDeep) p (Checker.questionDepth p c.settings) 0
  exact (askOf_rel hstep p query c hc).2 () c' hrun

theorem Reached.memo_consistent {c : Checker} (h : Reached c) : c.memo.Consistent := by
  induction h with
  | new settings => exact .empty
  | step _ op run ih =>
    cases op with
    | ask p query => exact query.ask_consistent p ih run
    | invalidate p node =>
      obtain ⟨nodes, rfl⟩ := Checker.invalidate_run run
      exact ih.removeAll nodes
    | clear =>
      obtain ⟨-, rfl⟩ := Prod.mk.inj (Except.ok.inj run)
      exact .empty
    | register change =>
      obtain ⟨-, rfl⟩ := Prod.mk.inj (Except.ok.inj run)
      exact ih

/-- Between operations the memo is `Consistent`, no node is open, and every node is absent or finished. While a question
is answered it is consistent whenever a question is asked inside it and whenever the memo has changed: giving up
otherwise by `Infer.inspect`, with any fault, changes nothing. While types are forgotten it is consistent after each
`Memo.remove`. -/
theorem Reached.always_consistent {c : Checker} (h : Reached c) :
    (c.memo.Consistent ∧ c.memo.frames = [] ∧
        ∀ node, c.memo.get? node = none ∨ ∃ t, c.memo.get? node = some (.done t)) ∧
      (∀ (p : Tree) (query : Query) (fault : Fault),
        (query.askOf p (watched (Infer.inspect fault) p (Checker.questionDepth p c.settings) 0)).run c =
          (query.ask p).run c) ∧
      ∀ nodes : List NodeId, (nodes.foldl Memo.remove c.memo).Consistent := by
  have hbooks := h.memo_consistent
  refine ⟨⟨hbooks, h.idle.frames, fun node => ?_⟩, fun p query fault => ?_, hbooks.removeAll⟩
  · cases hentry : c.memo.get? node with
    | none => exact .inl rfl
    | some entry =>
      cases entry with
      | inProgress => exact absurd hentry (h.idle.closed node)
      | done t => exact .inr ⟨t, rfl⟩
  · rw [query.run_ask]
    have hstep := watched_consistently (Infer.inspect_silent fault) p (Checker.questionDepth p c.settings) 0
    exact (Query.askOf_rel hstep p query c hbooks).1

/-- While `f` is typed, `g` is opened, observes `f` and is thrown away. -/
theorem mutualCalls_consistent :
    ∃ t c, (Checker.typeOf mutualCalls 0).run {} = .ok (t, c) ∧ t.text = "fn() -> u8" ∧
      c.memo.Consistent ∧ c.memo.frames = [] ∧
      ∀ fault, ((Query.typeOf 0).askOf mutualCalls
          (watched (Infer.inspect fault) mutualCalls (Checker.questionDepth mutualCalls {}) 0)).run {} =
        .ok ((), c) := by
  have hfound : (Checker.typeOf mutualCalls 0).textFound {} = some "fn() -> u8" := by decide +kernel
  obtain ⟨t, c, hrun, htext⟩ := Infer.textFound_eq_some.mp hfound
  have hask : ((Query.typeOf 0).ask mutualCalls).run {} = .ok ((), c) := by
    show (discard (Checker.typeOf mutualCalls 0)).run {} = _
    rw [Search.run_discard, hrun]
    rfl
  have hreached : Reached c := (Reached.new {}).step (.ask mutualCalls (.typeOf 0)) hask
  obtain ⟨⟨hbooks, hframes, -⟩, -, -⟩ := hreached.always_consistent
  refine ⟨t, c, hrun, htext, hbooks, hframes, fun fault => ?_⟩
  exact ((Reached.new {}).always_consistent.2.1 mutualCalls (.typeOf 0) fault).trans hask

end Ascribe
