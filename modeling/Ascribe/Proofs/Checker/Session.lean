import Ascribe.Checker
import Ascribe.Proofs.Checker.Growth

/-!
# Sessions

A session is what a host does with one checker: it asks questions, forgets what an edit made wrong, and
registers instantiations of its own. Every question is about a tree, which may be another one each time.

Between the operations of a session no node is open (`Reached.idle`). A question lets the checker grow, so
it never touches a finished type (`Asked.grows`).
-/

namespace Ascribe

/-- The questions a host may ask about a tree. -/
inductive Query where
  | typeOf (node : NodeId)
  | resolve (t : Ty)
  | compare (actual expected : Ty)
  | castSafety (source target : Ty)
  | memberNodes (t : Ty)
  | diagnostics (root : NodeId)

/-- Ask a question and drop the answer. -/
def Query.ask (p : Tree) : Query → Infer Unit
  | .typeOf node => discard (Checker.typeOf p node)
  | .resolve t => discard (Checker.resolve p t)
  | .compare actual expected => discard (Checker.compare p actual expected)
  | .castSafety source target => discard (Checker.castSafety p source target)
  | .memberNodes t => discard (Checker.memberNodes p t)
  | .diagnostics root => discard (Checker.diagnostics p root)

/-- What a host may do with a checker. -/
inductive Operation where
  | ask (p : Tree) (query : Query)
  | invalidate (p : Tree) (node : NodeId)
  | clear
  /-- Change the log of instantiations. -/
  | register (change : Instantiation.Registry → Instantiation.Registry)

/-- Perform an operation. -/
def Operation.perform : Operation → Infer Unit
  | .ask p query => query.ask p
  | .invalidate p node => Checker.invalidate p node
  | .clear => modify Checker.clear
  | .register change => modify fun c => { c with registry := change c.registry }

/-- The checkers that operations lead to, from a new one with any settings. -/
inductive Reached : Checker → Prop where
  | new (settings : Settings) : Reached { settings }
  | step {c c' : Checker} (h : Reached c) (op : Operation) (run : op.perform.run c = .ok ((), c')) :
    Reached c'

/-- The checkers that operations of some kind lead to, from a new one with any settings. -/
inductive ReachedBy (allowed : Operation → Prop) : Checker → Prop where
  | new (settings : Settings) : ReachedBy allowed { settings }
  | step {c c' : Checker} (h : ReachedBy allowed c) (op : Operation) (ok : allowed op)
    (run : op.perform.run c = .ok ((), c')) : ReachedBy allowed c'

theorem ReachedBy.reached {allowed : Operation → Prop} {c : Checker} (h : ReachedBy allowed c) : Reached c := by
  induction h with
  | new settings => exact .new settings
  | step _ op _ run ih => exact ih.step op run

/-- One checker after some questions is another. -/
inductive Asked (c : Checker) : Checker → Prop where
  | none : Asked c c
  | step {c' c'' : Checker} (h : Asked c c') (p : Tree) (query : Query)
    (run : (query.ask p).run c' = .ok ((), c'')) : Asked c c''

/-! ## A question of a host, answered by given answers -/

namespace Queries

namespace InStep

variable {L : Lockstep Checker Checker} {q r : Queries} (h : q.InStep L r)

include h

theorem memberNodes (t : Ty) : L.Rel (q.memberNodes t) (r.memberNodes t) := by
  refine L.bind (h.resolveDeep _) fun target => ?_
  split
  case h_3 => exact L.bind (h.interfaceMethods _) fun _ => L.pure _
  all_goals exact L.pure _

theorem diagnosticAt (p : Tree) (node : NodeId) : L.Rel (q.diagnosticAt p node) (r.diagnosticAt p node) := by
  refine L.bind (h.typeOf node) fun t => ?_
  split
  · split
    · exact L.pure _
    · exact L.bind (L.ofWalk _) fun _ => L.pure _
  · exact L.pure _

theorem diagnostics (p : Tree) (root : NodeId) : L.Rel (q.diagnostics p root) (r.diagnostics p root) :=
  L.bind (L.ofWalk _) fun nodes => Lockstep.filterMapM (h.diagnosticAt p) nodes

end InStep

end Queries

namespace Query

/-- Ask a question of given answers and drop what they say. -/
def askOf (p : Tree) (q : Queries) : Query → Infer Unit
  | .typeOf node => discard (q.typeOf node)
  | .resolve t => discard (q.resolveDeep t)
  | .compare actual expected => discard (q.compare [] actual expected)
  | .castSafety source target => discard (q.comparer.castSafety source target)
  | .memberNodes t => discard (q.memberNodes t)
  | .diagnostics root => discard (q.diagnostics p root)

theorem askOf_rel {L : Lockstep Checker Checker} {q r : Queries} (h : q.InStep L r) (p : Tree)
    (query : Query) : L.Rel (query.askOf p q) (query.askOf p r) := by
  cases query with
  | typeOf node => exact Lockstep.discard (h.typeOf node)
  | resolve t => exact Lockstep.discard (h.resolveDeep t)
  | compare actual expected => exact Lockstep.discard (h.compare [] actual expected)
  | castSafety source target => exact Lockstep.discard (h.comparer.castSafety source target)
  | memberNodes t => exact Lockstep.discard (h.memberNodes t)
  | diagnostics root => exact Lockstep.discard (h.diagnostics p root)

end Query

namespace Checker

/-- The answers to the questions of a host who has made some settings. -/
def answersFor (p : Tree) (settings : Settings) : Queries :=
  answers p (questionDepth p settings) 0

theorem run_queries_bind {α : Type} (p : Tree) (k : Queries → Infer α) (c : Checker) :
    (queries p >>= k).run c = (k (answersFor p c.settings)).run c :=
  rfl

end Checker

namespace Query

/-- `ask` is answered by `answersFor` the settings of the checker. -/
theorem run_ask (p : Tree) (query : Query) (c : Checker) :
    (query.ask p).run c = (query.askOf p (Checker.answersFor p c.settings)).run c := by
  have hdiscard {α : Type} {x y : Infer α} (h : x.run c = y.run c) :
      (discard x).run c = (discard y).run c := by
    rw [Search.run_discard, Search.run_discard, h]
  cases query with
  | typeOf node => exact hdiscard (Checker.run_queries_bind p (·.typeOf node) c)
  | resolve t => exact hdiscard (Checker.run_queries_bind p (·.resolveDeep t) c)
  | compare actual expected => exact hdiscard (Checker.run_queries_bind p (·.compare [] actual expected) c)
  | castSafety source target =>
    exact hdiscard (Checker.run_queries_bind p (·.comparer.castSafety source target) c)
  | memberNodes t => exact hdiscard (Checker.run_queries_bind p (·.memberNodes t) c)
  | diagnostics root => exact hdiscard (Checker.run_queries_bind p (·.diagnostics p root) c)

theorem ask_growing (p : Tree) (query : Query) :
    Lockstep.growing.Rel (query.ask p) (query.ask p) := by
  intro c v c' hrun
  rw [run_ask] at hrun
  exact askOf_rel (answers_growing p _ 0) p query c v c' hrun

end Query

theorem Asked.grows {c c' : Checker} (h : Asked c c') : c.Grows c' := by
  induction h with
  | none => exact .refl c
  | step _ p query run ih => exact ih.trans (query.ask_growing p _ _ _ run)

/-! ## Between operations no node is open -/

/-- No node is open. -/
structure Memo.Idle (m : Memo) : Prop where
  frames : m.frames = []
  closed : ∀ node, m.get? node ≠ some .inProgress

namespace Memo.Idle

theorem empty : Idle {} :=
  ⟨rfl, fun node h => by simp [Memo.get?] at h⟩

theorem grows {m m' : Memo} (hidle : m.Idle) (h : m.Grows m') : m'.Idle := by
  refine ⟨?_, fun node hopen => hidle.closed node (h.inProgress.mp hopen)⟩
  have hnodes := h.nodes
  rw [hidle.frames, List.map_nil, List.map_eq_nil_iff] at hnodes
  exact hnodes

/-- `remove` opens no node, so it keeps a memo `Idle`. -/
theorem remove {m : Memo} (hidle : m.Idle) (node : NodeId) : (m.remove node).Idle := by
  unfold Memo.remove
  split
  · refine ⟨hidle.frames, fun other => ?_⟩
    simp only [Memo.get?, NodeMap.get?_erase]
    split
    · simp
    · exact hidle.closed other
  · exact hidle

theorem removeAll {m : Memo} (hidle : m.Idle) (nodes : List NodeId) :
    (nodes.foldl Memo.remove m).Idle := by
  induction nodes generalizing m with
  | nil => exact hidle
  | cons node rest ih => exact ih (hidle.remove node)

end Memo.Idle

/-- `invalidate` drops the types of some nodes and everything that was resolved. -/
theorem Checker.invalidate_run {c c' : Checker} {p : Tree} {node : NodeId}
    (run : (Checker.invalidate p node).run c = .ok ((), c')) :
    ∃ nodes : List NodeId, c' = { c with memo := nodes.foldl Memo.remove c.memo, resolved := ∅ } := by
  obtain ⟨nodes, c₁, hnodes, hrun⟩ := Search.run_bind_eq_ok.mp run
  obtain ⟨-, rfl⟩ := Search.run_ofWalk_eq_ok.mp hnodes
  obtain ⟨-, rfl⟩ := Prod.mk.inj (Except.ok.inj hrun)
  exact ⟨nodes, rfl⟩

/-- The memo is `Idle` between the operations of a session. -/
theorem Reached.idle {c : Checker} (h : Reached c) : c.memo.Idle := by
  induction h with
  | new settings => exact .empty
  | step _ op run ih =>
    cases op with
    | ask p query => exact ih.grows (query.ask_growing p _ _ _ run).memo
    | invalidate p node =>
      obtain ⟨nodes, rfl⟩ := Checker.invalidate_run run
      exact ih.removeAll nodes
    | clear =>
      obtain ⟨-, rfl⟩ := Prod.mk.inj (Except.ok.inj run)
      exact .empty
    | register change =>
      obtain ⟨-, rfl⟩ := Prod.mk.inj (Except.ok.inj run)
      exact ih

end Ascribe
