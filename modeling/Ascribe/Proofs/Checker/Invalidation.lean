import Ascribe.Proofs.Checker.Placeholders
import Ascribe.Proofs.Tree.Forest

/-!
# Invalidating a whole tree

An invalidation forgets the types of a node and of the nodes below it, and every resolved named type. It keeps the log
of instantiations, the counter of resolutions and the lowest position that was observed since the last mark. If all
nodes of a tree are below the node that is invalidated, nothing is left that a later question could tell from a new
checker.

The argument compares two runs. Two checkers are alike if they hold the same types and the same open nodes, whatever
was observed before the first question that is compared (`Memo.Alike`). Of the lowest position only what was observed
since the last mark is ever looked at, and a mark hides what was observed before it. So searches on checkers that are
alike find the same answers and leave checkers that are alike (`Lockstep.alike`).

## Key results

- `ReachedBy.entries`: what holds of every entry that a session about one tree leaves
- `ReachedBy.filed`: a session about one tree files types for nodes of that tree only
- `answers_alike`: checkers that are alike give the same answers
- `Checker.invalidate_root`: a tree that was invalidated as a whole is as good as a new one
-/

namespace Ascribe

variable {p : Tree} {q : Queries} {c d : Checker} {node root : NodeId}

/-! ## Sessions about one tree -/

/-- An operation that asks about no other tree. -/
def Operation.On (p : Tree) : Operation → Prop
  | .ask about _ => about = p
  | _ => True

/-- Types are filed for nodes of a tree only. -/
def Checker.Filed (p : Tree) : Checker → Prop :=
  Checker.Entries fun node _ => node < p.size

/-- `Entries K` holds after a session about a tree if `K` holds of its nodes while they are open and of the types that
`Typing.ruleFor` gives. -/
theorem ReachedBy.entries {K : NodeId → MemoEntry → Prop}
    (hopen : ∀ node form, p.form? node = some form → K node .inProgress)
    (hdone : ∀ (q : Queries) (node : NodeId) (form : Form) (c : Checker) (t : Ty) (c' : Checker),
      p.form? node = some form → (Typing.ruleFor p q node form).run c = .ok (t, c') → K node (.done (t.orOrigin node)))
    (h : ReachedBy (Operation.On p) c) : c.Entries K := by
  induction h with
  | new settings =>
    intro node entry hentry
    cases (NodeMap.get?_empty node).symm.trans hentry
  | @step c c' _ op on run ih =>
    cases op with
    | ask about query =>
      obtain rfl : about = p := on
      simp only [Operation.perform, Query.run_ask] at run
      exact ((Query.askOf_rel (answers_entries hopen hdone _ 0) about query _ ih).1 _ _ run).1
    | invalidate about node =>
      obtain ⟨nodes, rfl⟩ := Checker.invalidate_run run
      intro other entry hentry
      rcases Memo.get?_removeAll_cases c.memo nodes other with hnone | hsame
      · cases hnone.symm.trans hentry
      · exact ih other entry (hsame.symm.trans hentry)
    | clear =>
      obtain ⟨-, rfl⟩ := Prod.mk.inj (Except.ok.inj run)
      intro node entry hentry
      cases (NodeMap.get?_empty node).symm.trans hentry
    | register change =>
      obtain ⟨-, rfl⟩ := Prod.mk.inj (Except.ok.inj run)
      exact ih

/-- A session about one tree leaves a checker `Filed` for it: a node is opened once its form was found. -/
theorem ReachedBy.filed (h : ReachedBy (Operation.On p) c) : c.Filed p := by
  refine h.entries (fun node form hform => ?_) (fun _ node form _ _ _ hform _ => ?_)
  all_goals exact Tree.lt_size_of_form? hform

/-! ## Memos that are alike -/

namespace Memo

theorem lower_none (a : Option Nat) : lower a none = a := by
  cases a <;> rfl

theorem none_lower (a : Option Nat) : lower none a = a := by
  cases a <;> rfl

theorem lower_comm (a b : Option Nat) : lower a b = lower b a := by
  cases a <;> cases b <;> simp [lower, Nat.min_comm]

theorem lower_assoc (a b c : Option Nat) : lower (lower a b) c = lower a (lower b c) := by
  cases a <;> cases b <;> cases c <;> simp [lower, Nat.min_assoc]

/-- Two memos that hold the same types and the same open nodes. The same positions were observed in both since a time
at which the lowest ones were `before` and `before'`. -/
structure Alike (before before' : Option Nat) (m n : Memo) : Prop where
  get? : ∀ node, n.get? node = m.get? node
  frames : n.frames = m.frames
  lowest : ∃ seen, m.lowest = lower seen before ∧ n.lowest = lower seen before'

namespace Alike

variable {before before' : Option Nat} {m n m₁ n₁ : Memo} (h : Alike before before' m n)

include h

theorem start (node : NodeId) : Alike before before' (m.start node) (n.start node) where
  get? other := by rw [get?_start, get?_start, h.get?]
  frames := by
    show _ :: n.frames = _ :: m.frames
    rw [h.frames]
  lowest := h.lowest

theorem observe (node : NodeId) : Alike before before' (m.observe node) (n.observe node) := by
  obtain ⟨seen, hm, hn⟩ := h.lowest
  refine ⟨fun other => by rw [get?_observe, get?_observe, h.get?], ?_, ?_⟩
  · unfold Memo.observe
    rw [h.frames]
    split
    · rfl
    · exact h.frames
  · unfold Memo.observe
    rw [h.frames]
    split
    · -- what is observed now is added to what was seen since
      next newer _ =>
      refine ⟨lower seen (some (m.frames.length - 1 - newer)), ?_, ?_⟩
      · show lower m.lowest _ = _
        rw [hm, lower_assoc, lower_comm before, ← lower_assoc]
      · show lower n.lowest _ = _
        rw [hn, lower_assoc, lower_comm before', ← lower_assoc]
    · exact ⟨seen, hm, hn⟩

/-- `finish` keeps memos `Alike`: the frame on top says in both whether the type is kept. -/
theorem finish (node : NodeId) (t : Ty) : Alike before before' (m.finish node t) (n.finish node t) := by
  have hentries (other : NodeId) : n.entries.get? other = m.entries.get? other := h.get? other
  cases hframes : m.frames with
  | nil =>
    have hframes' : n.frames = [] := h.frames.trans hframes
    simp only [Memo.finish, hframes, hframes']
    exact ⟨fun other => by simp [Memo.get?, hentries], rfl, h.lowest⟩
  | cons frame rest =>
    have hframes' : n.frames = frame :: rest := h.frames.trans hframes
    cases htaint : frame.isTainted with
    | false =>
      simp only [Memo.finish, hframes, hframes', htaint]
      exact ⟨fun other => by simp [Memo.get?, hentries], rfl, h.lowest⟩
    | true =>
      simp only [Memo.finish, hframes, hframes', htaint]
      exact ⟨fun other => by simp [Memo.get?, hentries], rfl, h.lowest⟩

/-- `mark` hides what was observed before it, so memos are `Alike` with nothing observed. -/
theorem mark : Alike none none m.mark.2 n.mark.2 :=
  ⟨h.get?, h.frames, none, rfl, rfl⟩

/-- `observedOutside` says the same of both memos about what leaked since a mark. -/
theorem observedOutside_fst (hinner : Alike none none m₁ n₁) :
    (n₁.observedOutside n.mark.1).1 = (m₁.observedOutside m.mark.1).1 := by
  obtain ⟨seen, hm, hn⟩ := hinner.lowest
  show n₁.lowest.any (· < n.frames.length) = m₁.lowest.any (· < m.frames.length)
  rw [hm, hn, h.frames]

/-- `observedOutside` merges what was observed before the mark again with what was observed since. -/
theorem observedOutside (hinner : Alike none none m₁ n₁) :
    Alike before before' (m₁.observedOutside m.mark.1).2 (n₁.observedOutside n.mark.1).2 := by
  obtain ⟨seen, hm, hn⟩ := h.lowest
  obtain ⟨since, hm₁, hn₁⟩ := hinner.lowest
  rw [lower_none] at hm₁ hn₁
  refine ⟨hinner.get?, hinner.frames, lower since seen, ?_, ?_⟩
  · show lower m₁.lowest m.lowest = _
    rw [hm₁, hm, lower_assoc]
  · show lower n₁.lowest n.lowest = _
    rw [hn₁, hn, lower_assoc]

end Alike

end Memo

/-! ## Checkers that are alike -/

/-- Two checkers with the same settings that hold the same types, whatever they have logged and counted. -/
structure Checker.Alike (before before' : Option Nat) (c d : Checker) : Prop where
  settings : d.settings = c.settings
  memo : Memo.Alike before before' c.memo d.memo
  resolved : d.resolved = c.resolved

/-- Two runs that end with the same answer on checkers that are alike, or with the same fault. -/
inductive Checker.SameOutcome (before before' : Option Nat) {α : Type} :
    Except Fault (α × Checker) → Except Fault (α × Checker) → Prop where
  | found (a : α) {c d : Checker} (h : c.Alike before before' d) : SameOutcome before before' (.ok (a, c)) (.ok (a, d))
  | fault (fault : Fault) : SameOutcome before before' (.error fault) (.error fault)

namespace Checker.SameOutcome

variable {before before' inner inner' : Option Nat} {α β : Type}

theorem bind {x y : Except Fault (α × Checker)} {k l : α × Checker → Except Fault (β × Checker)}
    (h : SameOutcome inner inner' x y)
    (hk : ∀ a c d, c.Alike inner inner' d → SameOutcome before before' (k (a, c)) (l (a, d))) :
    SameOutcome before before' (x >>= k) (y >>= l) := by
  cases h with
  | found a halike => exact hk a _ _ halike
  | fault fault => exact .fault fault

theorem map_fst {x y : Except Fault (α × Checker)} (h : SameOutcome before before' x y) :
    x.map Prod.fst = y.map Prod.fst := by
  cases h <;> rfl

end Checker.SameOutcome

/-- Searches that find the same on checkers that are alike, and leave them alike, as a lockstep. -/
def Lockstep.alike : Lockstep Checker Checker where
  Rel x y := ∀ (before before' : Option Nat) (c d : Checker), c.Alike before before' d →
    Checker.SameOutcome before before' (x.run c) (y.run d)
  pure a := fun _ _ _ _ h => .found a h
  throw fault := fun _ _ _ _ _ => .fault fault
  bind := by
    intro α β x y k l hx hk before before' c d h
    rw [StateT.run_bind, StateT.run_bind]
    exact (hx _ _ c d h).bind fun a c₁ d₁ h₁ => hk a _ _ c₁ d₁ h₁

theorem Infer.Aside.alike {α : Type} {x : Infer α} (haside : x.Aside) : Lockstep.alike.Rel x x := by
  intro before before' c d h
  obtain ⟨answer, hanswer⟩ := haside
  obtain ⟨c₁, hrun, hsettings, hmemo, hresolved⟩ := hanswer c
  obtain ⟨d₁, hrun', hsettings', hmemo', hresolved'⟩ := hanswer d
  rw [hrun, hrun', h.settings]
  refine .found _ ⟨?_, ?_, ?_⟩
  · rw [hsettings, hsettings', h.settings]
  · rw [hmemo, hmemo']
    exact h.memo
  · rw [hresolved, hresolved', h.resolved]

theorem Lockstep.alike_effects : Lockstep.alike.Effects :=
  .of_aside fun haside => haside.alike

/-- `keepResolved` keeps what a named type stands for in both checkers or in neither. -/
theorem Checker.Alike.keepResolved {before before' : Option Nat} {c₁ d₁ : Checker} (h : c.Alike before before' d)
    (hinner : c₁.Alike none none d₁) (key : ReferenceKey) (t : Ty) :
    Checker.Alike before before' (c₁.keepResolved c.memo.mark.1 key t) (d₁.keepResolved d.memo.mark.1 key t) := by
  have hmemo := h.memo.observedOutside hinner.memo
  unfold Checker.keepResolved
  rw [h.memo.observedOutside_fst hinner.memo]
  split
  · exact ⟨hinner.settings, hmemo, hinner.resolved⟩
  · exact ⟨hinner.settings, hmemo, congrArg (·.insert key t) hinner.resolved⟩

namespace Typing

variable (h : q.InStep .alike q)

include h

theorem typeOf_alike (node : NodeId) : Lockstep.alike.Rel (typeOf p q node) (typeOf p q node) := by
  intro before before' c d halike
  have hentry := halike.memo.get? node
  cases hget : c.memo.get? node with
  | some entry =>
    cases entry with
    | done t =>
      rw [typeOf_run_done hget, typeOf_run_done (hentry.trans hget)]
      exact .found t halike
    | inProgress =>
      rw [typeOf_run_open hget, typeOf_run_open (hentry.trans hget)]
      exact .found _ ⟨halike.settings, halike.memo.observe node, halike.resolved⟩
  | none =>
    rw [typeOf_run_eq hget, typeOf_run_eq (hentry.trans hget)]
    cases p.form node with
    | error fault => exact .fault fault
    | ok form =>
      have hstart : Checker.Alike before before' { c with memo := c.memo.start node }
          { d with memo := d.memo.start node } :=
        ⟨halike.settings, halike.memo.start node, halike.resolved⟩
      refine (ruleFor_rel h p Lockstep.alike_effects node form _ _ _ _ hstart).bind fun t c₁ d₁ h₁ => ?_
      exact .found _ ⟨h₁.settings, h₁.memo.finish node _, h₁.resolved⟩

theorem resolve_alike (references : Nat) (r : Reference Ty) :
    Lockstep.alike.Rel (resolve p q references r) (resolve p q references r) := by
  intro before before' c d halike
  cases hkept : c.resolved.get? r.key with
  | some t =>
    rw [resolve_run_known hkept, resolve_run_known (halike.resolved ▸ hkept)]
    exact .found t halike
  | none =>
    have hkept' : d.resolved.get? r.key = none := halike.resolved ▸ hkept
    by_cases hdeep : c.settings.maxReferenceDepth ≤ references
    · rw [resolve_run_deep hkept hdeep, resolve_run_deep hkept' (halike.settings ▸ hdeep)]
      exact .found _ halike
    · rw [resolve_run_eq hkept hdeep, resolve_run_eq hkept' (halike.settings ▸ hdeep)]
      have hmark : Checker.Alike none none { c with memo := c.memo.mark.2 } { d with memo := d.memo.mark.2 } :=
        ⟨halike.settings, halike.memo.mark, halike.resolved⟩
      refine (expand_rel h p Lockstep.alike_effects r _ _ _ _ hmark).bind fun t c₁ d₁ h₁ => ?_
      exact .found t (halike.keepResolved h₁ r.key t)

end Typing

/-- `answers` are the same for checkers that are `Alike`. -/
theorem answers_alike (p : Tree) (depth references : Nat) :
    (answers p depth references).InStep .alike (answers p depth references) := by
  induction depth generalizing references with
  | zero => exact Queries.exhausted_inStep
  | succ depth ih =>
    rw [answers_succ]
    exact Queries.above_inStep (ih references) (Typing.typeOf_alike (ih references))
      (Typing.resolve_alike (ih (references + 1)) references)

/-! ## What a host is told -/

/-- What a host is told. -/
inductive Answer where
  | type (t : Ty)
  | verdict (verdict : Verdict)
  | castSafety (safety : CastSafety)
  | nodes (nodes : List NodeId)
  | diagnostics (found : List Diagnostic)

/-- Ask a question. -/
def Query.answer (p : Tree) : Query → Infer Answer
  | .typeOf node => .type <$> Checker.typeOf p node
  | .resolve t => .type <$> Checker.resolve p t
  | .compare actual expected => .verdict <$> Checker.compare p actual expected
  | .castSafety source target => .castSafety <$> Checker.castSafety p source target
  | .memberNodes t => .nodes <$> Checker.memberNodes p t
  | .diagnostics root => .diagnostics <$> Checker.diagnostics p root

/-- `Checker.queries` goes as deep in checkers that are `Alike`, since these have the same settings. -/
theorem Lockstep.alike_queries {α : Type} {k : Queries → Infer α}
    (hk : ∀ {q : Queries}, q.InStep .alike q → Lockstep.alike.Rel (k q) (k q)) :
    Lockstep.alike.Rel (Checker.queries p >>= k) (Checker.queries p >>= k) := by
  intro before before' c d h
  rw [Checker.run_queries_bind, Checker.run_queries_bind, h.settings]
  exact hk (answers_alike p _ 0) _ _ c d h

theorem Query.answer_alike (p : Tree) (query : Query) :
    Lockstep.alike.Rel (query.answer p) (query.answer p) := by
  cases query with
  | typeOf node =>
    exact Lockstep.map _ (Lockstep.alike_queries (k := (·.typeOf node)) fun h => h.typeOf node)
  | resolve t =>
    exact Lockstep.map _ (Lockstep.alike_queries (k := (·.resolveDeep t)) fun h => h.resolveDeep t)
  | compare actual expected =>
    exact Lockstep.map _ (Lockstep.alike_queries (k := (·.compare [] actual expected))
      fun h => h.compare [] actual expected)
  | castSafety source target =>
    exact Lockstep.map _ (Lockstep.alike_queries (k := (·.comparer.castSafety source target))
      fun h => h.comparer.castSafety source target)
  | memberNodes t =>
    exact Lockstep.map _ (Lockstep.alike_queries (k := (·.memberNodes t)) fun h => h.memberNodes t)
  | diagnostics root =>
    exact Lockstep.map _ (Lockstep.alike_queries (k := (·.diagnostics p root)) fun h => h.diagnostics p root)

/-! ## Invalidating a whole tree -/

/-- `remove` forgets every node while the memo is `Idle`. -/
theorem Memo.Idle.get?_remove {m : Memo} (h : m.Idle) (node : NodeId) : (m.remove node).get? node = none := by
  unfold Memo.remove
  split
  · simp [Memo.get?]
  · next hnot =>
    cases hget : m.get? node with
    | none => rfl
    | some entry =>
      cases entry with
      | inProgress => exact absurd hget (h.closed node)
      | done t => exact absurd hget (hnot t)

theorem Memo.Idle.get?_removeAll {m : Memo} (h : m.Idle) {nodes : List NodeId} (hnode : node ∈ nodes) :
    (nodes.foldl Memo.remove m).get? node = none := by
  induction nodes generalizing m with
  | nil => simp at hnode
  | cons first rest ih =>
    rcases List.mem_cons.mp hnode with rfl | hnode
    · rcases Memo.get?_removeAll_cases (m.remove node) rest node with hnone | hsame
      · exact hnone
      · exact hsame.trans (h.get?_remove node)
    · exact ih (h.remove first) hnode

theorem Memo.lowest_removeAll (m : Memo) (nodes : List NodeId) : (nodes.foldl Memo.remove m).lowest = m.lowest := by
  induction nodes generalizing m with
  | nil => rfl
  | cons first rest ih =>
    refine (ih (m.remove first)).trans ?_
    unfold Memo.remove
    split <;> rfl

theorem Checker.run_invalidate {nodes : List NodeId} (h : p.descendants root = .ok nodes) (c : Checker) :
    (invalidate p root).run c =
      .ok ((), { c with memo := nodes.foldl Memo.remove c.memo, resolved := ∅ }) := by
  exact Search.run_bind_of_ok (Search.run_ofWalk_eq_ok.mpr ⟨h, rfl⟩)

/-- A checker without types is `Alike` to a new one, whatever position it observed last. -/
theorem Checker.alike_new (hidle : c.memo.Idle) (hnone : ∀ node, c.memo.get? node = none) (hresolved : c.resolved = ∅) :
    c.Alike c.memo.lowest none { settings := c.settings } where
  settings := rfl
  memo := ⟨fun node => (NodeMap.get?_empty node).trans (hnone node).symm, hidle.frames.symm, none,
    (Memo.none_lower _).symm, rfl⟩
  resolved := hresolved.symm

/-- `invalidate` of the root makes a checker as good as a new one. Let every node of a well-formed tree be `Below` a
root. After any session about this tree an invalidation of the root succeeds. From then on every list of questions about
the tree is answered as by a new checker with the same settings, one by one and with the same fault if one is not
answered, although the log of instantiations, the counter of resolutions and the lowest position observed are still
those of the session. -/
theorem Checker.invalidate_root (hp : p.WellFormed) (hroot : root < p.size)
    (hbelow : ∀ node, node < p.size → p.Below root node) (h : ReachedBy (Operation.On p) c) :
    ∃ c', (Checker.invalidate p root).run c = .ok ((), c') ∧
      c'.registry = c.registry ∧ c'.resolutions = c.resolutions ∧ c'.memo.lowest = c.memo.lowest ∧
      ∀ queries : List Query,
        ((queries.mapM (Query.answer p)).run c').map Prod.fst =
          ((queries.mapM (Query.answer p)).run { settings := c.settings }).map Prod.fst := by
  obtain ⟨nodes, hnodes⟩ := hp.linked.descendants_ok hroot
  have hidle := h.reached.idle
  refine ⟨_, Checker.run_invalidate hnodes c, rfl, rfl, Memo.lowest_removeAll _ _, fun queries => ?_⟩
  have hnone (node : NodeId) : (nodes.foldl Memo.remove c.memo).get? node = none := by
    cases hfiled : c.memo.get? node with
    | none =>
      rcases Memo.get?_removeAll_cases c.memo nodes node with hnone | hsame
      · exact hnone
      · exact hsame.trans hfiled
    | some entry =>
      -- a node with a type is one of the tree, so the walk from the root came by
      have hlt : node < p.size := h.filed node entry hfiled
      exact hidle.get?_removeAll ((Tree.mem_descendants_iff hnodes).mpr (hbelow node hlt))
  have halike := Checker.alike_new (c := { c with memo := nodes.foldl Memo.remove c.memo, resolved := ∅ })
    (hidle.removeAll nodes) hnone rfl
  exact (Lockstep.mapM (Query.answer_alike p) queries _ _ _ _ halike).map_fst

/-- A unit with the function `fn f() { return f(); }`. -/
def selfCall : Tree where
  nodes := #[
    { form := .funDecl { name := "f", body := some 4 }, parent := some 5 },
    { form := .name { name := "f", target := some 0 }, parent := some 2 },
    { form := .call { callee := 1 }, parent := some 3 },
    { form := .returnStmt (some 2), parent := some 4 },
    { form := .block [3], parent := some 0 },
    { form := .compilationUnit [0] }]

/-- The search for the type of `f` comes back to `f`, and the position of `f` is still noted when the whole unit is
invalidated. -/
theorem selfCall_invalidated :
    selfCall.WellFormed ∧ 5 < selfCall.size ∧ (∀ node, node < selfCall.size → selfCall.Below 5 node) ∧
      ∃ c c', ReachedBy (Operation.On selfCall) c ∧ c.memo.lowest = some 0 ∧ c.memo.get? 0 ≠ none ∧
        (Checker.invalidate selfCall 5).run c = .ok ((), c') ∧ c'.memo.lowest = some 0 ∧
        ∀ queries : List Query,
          ((queries.mapM (Query.answer selfCall)).run c').map Prod.fst =
            ((queries.mapM (Query.answer selfCall)).run { settings := c.settings }).map Prod.fst := by
  have hp : selfCall.WellFormed := .of_forall (by decide)
  have hbelow : ∀ node, node < selfCall.size → selfCall.Below 5 node := by
    have hunit : selfCall.Below 5 0 := .single (by decide)
    have hblock : selfCall.Below 5 4 := hunit.tail (by decide)
    have hreturn : selfCall.Below 5 3 := hblock.tail (by decide)
    have hcall : selfCall.Below 5 2 := hreturn.tail (by decide)
    have hname : selfCall.Below 5 1 := hcall.tail (by decide)
    intro node hnode
    have hcases : node = 0 ∨ node = 1 ∨ node = 2 ∨ node = 3 ∨ node = 4 ∨ node = 5 := by
      have : selfCall.size = 6 := rfl
      omega
    rcases hcases with rfl | rfl | rfl | rfl | rfl | rfl
    · exact hunit
    · exact hname
    · exact hcall
    · exact hreturn
    · exact hblock
    · exact .refl
  let session : Infer Bool := do
    (Query.typeOf 0).ask selfCall
    return (← get).memo.lowest == some 0 && ((← get).memo.get? 0).isSome
  obtain ⟨answer, c₁, hsession, hanswer⟩ :=
    Search.exists_run_of_any (x := session) (s := {}) (P := id) (by decide +kernel)
  obtain ⟨_, c, hask, hrest⟩ := Search.run_bind_eq_ok.mp hsession
  obtain ⟨rfl, rfl⟩ := Prod.mk.inj (Except.ok.inj hrest)
  obtain ⟨hlowest, hfiled⟩ := Bool.and_eq_true_iff.mp hanswer
  have hc : ReachedBy (Operation.On selfCall) c := (ReachedBy.new {}).step (.ask selfCall (.typeOf 0)) rfl hask
  obtain ⟨c', hrun, -, -, hkept, hanswers⟩ := Checker.invalidate_root hp (by decide) hbelow hc
  have hlowest : c.memo.lowest = some 0 := by simpa using hlowest
  refine ⟨hp, by decide, hbelow, c, c', hc, hlowest, ?_, hrun, hkept.trans hlowest, hanswers⟩
  exact Option.isSome_iff_ne_none.mp hfiled

end Ascribe
