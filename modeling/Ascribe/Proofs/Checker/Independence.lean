import Ascribe.Proofs.Checker.Coherence
import Ascribe.Proofs.Checker.Stability

/-!
# Answers that do not depend on earlier questions

A host may ask its questions in any order. What a question is answered depends on the earlier ones in three
ways only: the question comes back to itself, and is cut off at whichever node was asked about first; an
earlier question resolved more named types inside each other than the settings allow, and the memo keeps what
it saw of the named types on the way; or two named types have the same key in the memo and stand for different
types.

Without these, answers are those of the rules without a memo. `AskedWithin` says that earlier questions met known
named types only and stayed within the limit; they may well have come back to themselves.

## Key results

- `AskedWithin.tracked`: every question that settles is answered by the rules
- `AskedWithin.typeOf_independent`, `AskedWithin.resolve_independent`: the type of a node, and what a type
  stands for
- `mutualCalls_order`, `resolve_order`: neither holds of questions in general
-/

namespace Ascribe

/-- A named type without arguments, under the name of its declaration. -/
def plainNames (p : Tree) (r : Reference Ty) : Bool :=
  r.args.isEmpty && (p.typeDecl? r.decl).any fun d => d.name == r.name

/-- `KeysAgree` holds of `plainNames`: named types without arguments are told apart by their keys. -/
theorem keysAgree_plainNames (p : Tree) (s : Settings) : KeysAgree p (plainNames p) s := by
  intro r r' hr hr' hkey t ht
  -- the key gives the declaration, and the declaration gives the name
  obtain ⟨decl, name, args⟩ := r
  obtain ⟨decl', name', args'⟩ := r'
  obtain rfl : decl = decl' := (Prod.mk.inj hkey).1
  simp only [plainNames, Bool.and_eq_true, List.isEmpty_iff, Option.any_eq_true, beq_iff_eq] at hr hr'
  obtain ⟨rfl, d, hd, rfl⟩ := hr
  obtain ⟨rfl, d', hd', rfl⟩ := hr'
  obtain rfl := Option.some.inj (hd.symm.trans hd')
  exact ht

namespace Checker

variable (p : Tree) (known : Reference Ty → Bool) (s : Settings)

/-- The answers that the rules give a host without a memo. -/
def directFor : Queries :=
  direct p known (questionDepth p s) 0

/-- The answers through the memos, where every named type that is new to its memo must be permitted. -/
def guardedFor : Queries :=
  guarded p known (questionDepth p s) 0

end Checker

/-- One checker after some questions about a tree is another, and the questions met no named types but known
ones, within the limit of the settings. -/
inductive AskedWithin (p : Tree) (known : Reference Ty → Bool) (c : Checker) : Checker → Prop where
  | none : AskedWithin p known c c
  | step {c' c'' : Checker} (h : AskedWithin p known c c') (query : Query)
    (run : (query.askOf p (Checker.guardedFor p known c'.settings)).run c' = .ok ((), c'')) :
    AskedWithin p known c c''

/-- A question that `guardedFor` answers is answered alike by `ask`. -/
theorem Query.run_ask_of_guarded {p : Tree} {known : Reference Ty → Bool} {query : Query} {c c' : Checker}
    (h : (query.askOf p (Checker.guardedFor p known c.settings)).run c = .ok ((), c')) :
    (query.ask p).run c = .ok ((), c') := by
  rw [Query.run_ask]
  exact Query.askOf_rel (answers_refines _ 0) p query c () c' h

namespace AskedWithin

variable {p : Tree} {known : Reference Ty → Bool} {s : Settings} {c c' : Checker}

theorem asked (h : AskedWithin p known c c') : Asked c c' := by
  induction h with
  | none => exact .none
  | step _ query run ih => exact ih.step p query (Query.run_ask_of_guarded run)

theorem settings_eq (h : AskedWithin p known { settings := s } c) : c.settings = s :=
  h.asked.grows.settings

theorem closed (h : AskedWithin p known { settings := s } c) (node : NodeId) :
    c.memo.get? node ≠ some .inProgress :=
  (Memo.Idle.empty.grows h.asked.grows.memo).closed node

/-- No node is open between questions, so every one is out of reach: `OpenBeyond` holds at any depth. -/
theorem openBeyond (h : AskedWithin p known { settings := s } c) (depth references : Nat) :
    c.OpenBeyond p known s depth references :=
  fun node hopen => absurd hopen (h.closed node)

theorem coherent (hkeys : KeysAgree p known s) (h : AskedWithin p known { settings := s } c) :
    c.Coherent p known s := by
  induction h with
  | none => exact .new
  | step h query run ih =>
    exact (Query.askOf_rel (guarded_coherent hkeys _ 0) p query _ ih h.openBeyond _ _ run).coherent

/-- A question that settles is answered by `guarded` as it is by `direct`. -/
theorem tracked (hkeys : KeysAgree p known s) (h : AskedWithin p known { settings := s } c) {α : Type}
    {k : Queries → Infer α} (hk : ∀ {L : Lockstep Checker Checker} {q r}, q.InStep L r → L.Rel (k q) (k r))
    {v : α} {c₀ : Checker} (hdirect : (k (Checker.directFor p known s)).run { settings := s } = .ok (v, c₀)) :
    ∃ c', (Checker.queries p >>= k).run c = .ok (v, c') ∧
      (k (Checker.guardedFor p known c.settings)).run c = .ok (v, c') := by
  -- the direct answer does not depend on the checker, so the one asked takes it over
  have hyields := hk (direct_indifferent (Checker.questionDepth p s) 0) { settings := s } v c₀ rfl hdirect
  have htracks : (Checker.guardedFor p known s).InStep (.tracks p known s True (Checker.questionDepth p s) 0)
      (Checker.directFor p known s) :=
    guarded_tracks hkeys fun _ => ⟨Nat.le_refl _, Nat.le_refl 0⟩
  have hfollows := (hk htracks).2 hyields (h.coherent hkeys) (h.openBeyond _ _)
  obtain ⟨v', c', hrun⟩ := hfollows.total trivial
  obtain ⟨rfl, -⟩ := hfollows.sound hrun
  rw [Checker.run_queries_bind, h.settings_eq]
  exact ⟨c', hk (answers_refines _ 0) c v' c' hrun, hrun⟩

/-- `typeOf` of a node that `Settles` is the same on a new checker and after any earlier questions, and asking for it
can go on the list of earlier questions. -/
theorem typeOf_independent (hkeys : KeysAgree p known s) (h : AskedWithin p known { settings := s } c)
    {node : NodeId} {t : Ty} {c₀ : Checker}
    (hdirect : ((Checker.directFor p known s).typeOf node).run { settings := s } = .ok (t, c₀)) :
    (∃ c₁, (Checker.typeOf p node).run { settings := s } = .ok (t, c₁)) ∧
      ∃ c', (Checker.typeOf p node).run c = .ok (t, c') ∧ AskedWithin p known { settings := s } c' := by
  have htracked {c : Checker} (h : AskedWithin p known { settings := s } c) :=
    h.tracked hkeys (k := (·.typeOf node)) (fun hq => hq.typeOf node) hdirect
  obtain ⟨c₁, hnew, -⟩ := htracked .none
  obtain ⟨c', hrun, hguarded⟩ := htracked h
  refine ⟨⟨c₁, hnew⟩, c', hrun, h.step (.typeOf node) ?_⟩
  rw [Query.askOf, Search.run_discard, hguarded]
  rfl

end AskedWithin

/-- Named types that stand for each other, `type C = u8`, `type B = C` and `type A = B`; a variable `let x: A = 1`
with a use of it, `x + 2`; and a function that calls itself, `fn f = { return f() }`. -/
def aliases : Tree where
  nodes := #[
    { form := .primitive .u8, parent := some 1 },
    { form := .typeDecl { name := "C", definition := 0 } },
    { form := .reference { name := "C", target := some 1 } [], parent := some 3 },
    { form := .typeDecl { name := "B", definition := 2 } },
    { form := .reference { name := "B", target := some 3 } [], parent := some 5 },
    { form := .typeDecl { name := "A", definition := 4 } },
    { form := .reference { name := "A", target := some 5 } [], parent := some 8 },
    { form := .int "1", parent := some 8 },
    { form := .varDecl { name := "x", type := some 6, init := some 7 } },
    { form := .name { name := "x", target := some 8 }, parent := some 11 },
    { form := .int "2", parent := some 11 },
    { form := .binary .add 9 10 },
    { form := .funDecl { name := "f", body := some 16 } },
    { form := .name { name := "f", target := some 12 }, parent := some 14 },
    { form := .call { callee := 13 }, parent := some 15 },
    { form := .returnStmt (some 14), parent := some 16 },
    { form := .block [15], parent := some 12 }]

/-- Asking for `f`, which comes back to itself, leaves a checker that is still within bounds. -/
theorem aliases_askedWithin : ∃ c, AskedWithin aliases (plainNames aliases) {} c ∧
    ((Query.typeOf 12).ask aliases).run {} = .ok ((), c) := by
  have hsome : (((Query.typeOf 12).askOf aliases (Checker.guardedFor aliases (plainNames aliases) {})).run
      {}).toOption.isSome := by decide +kernel
  obtain ⟨⟨_, c⟩, hfound⟩ := Option.isSome_iff_exists.mp hsome
  have hrun := toOption_eq_some.mp hfound
  exact ⟨c, AskedWithin.none.step (.typeOf 12) hrun, Query.run_ask_of_guarded hrun⟩

/-- The type of `x + 2` is the same before and after the type of `f` has been asked for. -/
theorem aliases_typeOf : ∃ t c, ((Query.typeOf 12).ask aliases).run {} = .ok ((), c) ∧ t.text = "u8" ∧
    (∃ c₁, (Checker.typeOf aliases 11).run {} = .ok (t, c₁)) ∧
    ∃ c', (Checker.typeOf aliases 11).run c = .ok (t, c') := by
  have hfound : ((Checker.directFor aliases (plainNames aliases) {}).typeOf 11).textFound {} = some "u8" := by
    decide +kernel
  obtain ⟨t, c₀, hdirect, htext⟩ := Infer.textFound_eq_some.mp hfound
  obtain ⟨c, hasked, hask⟩ := aliases_askedWithin
  obtain ⟨hnew, c', hrun, -⟩ := hasked.typeOf_independent (keysAgree_plainNames aliases {}) hdirect
  exact ⟨t, c, hask, htext, hnew, c', hrun⟩

/-- The type of `f` is `fn() -> u8` on a new checker, and `fn() -> u32` if the type of `g`, which it depends on
and which depends on it, has been asked for first. -/
theorem mutualCalls_order :
    (Checker.typeOf mutualCalls 0).textFound {} = some "fn() -> u8" ∧
      (do discard (Checker.typeOf mutualCalls 1); Checker.typeOf mutualCalls 0).textFound {} =
        some "fn() -> u32" := by
  decide +kernel

namespace AskedWithin

variable {p : Tree} {known : Reference Ty → Bool} {s : Settings} {c : Checker}

/-- `resolve` of a type, if it settles, is the same on a new checker and after any earlier questions, and asking for it
can go on the list of earlier questions. -/
theorem resolve_independent (hkeys : KeysAgree p known s) (h : AskedWithin p known { settings := s } c)
    {t u : Ty} {c₀ : Checker}
    (hdirect : ((Checker.directFor p known s).resolveDeep t).run { settings := s } = .ok (u, c₀)) :
    (∃ c₁, (Checker.resolve p t).run { settings := s } = .ok (u, c₁)) ∧
      ∃ c', (Checker.resolve p t).run c = .ok (u, c') ∧ AskedWithin p known { settings := s } c' := by
  have htracked {c : Checker} (h : AskedWithin p known { settings := s } c) :=
    h.tracked hkeys (k := (·.resolveDeep t)) (fun hq => hq.resolveDeep t) hdirect
  obtain ⟨c₁, hnew, -⟩ := htracked .none
  obtain ⟨c', hrun, hguarded⟩ := htracked h
  refine ⟨⟨c₁, hnew⟩, c', hrun, h.step (.resolve t) ?_⟩
  rw [Query.askOf, Search.run_discard, hguarded]
  rfl

end AskedWithin

/-- `B` stands for the same type before and after the type of `f` has been asked for. -/
theorem aliases_resolve : ∃ t c, ((Query.typeOf 12).ask aliases).run {} = .ok ((), c) ∧ t.text = "u8" ∧
    (∃ c₁, (Checker.resolve aliases (.reference 3 "B" [])).run {} = .ok (t, c₁)) ∧
    ∃ c', (Checker.resolve aliases (.reference 3 "B" [])).run c = .ok (t, c') := by
  have hfound : ((Checker.directFor aliases (plainNames aliases) {}).resolveDeep (.reference 3 "B" [])).textFound
      {} = some "u8" := by decide +kernel
  obtain ⟨t, c₀, hdirect, htext⟩ := Infer.textFound_eq_some.mp hfound
  obtain ⟨c, hasked, hask⟩ := aliases_askedWithin
  obtain ⟨hnew, c', hrun, -⟩ := hasked.resolve_independent (keysAgree_plainNames aliases {}) hdirect
  exact ⟨t, c, hask, htext, hnew, c', hrun⟩

/-- A generic type `type Box<T> = struct { x: T }`. -/
def boxes : Tree where
  nodes := #[
    { form := .genericParam "T" none, parent := some 4 },
    { form := .reference { name := "T", target := some 0 } [], parent := some 2 },
    { form := .field "x" 1, parent := some 3 },
    { form := .structType [2], parent := some 4 },
    { form := .typeDecl { name := "Box", generics := [0], definition := 3 } }]

/-- `Box<U>` for a generic parameter `U` below a bound. -/
def boxOf (bound : Ty) : Ty :=
  .reference 4 "Box" [.of (.generic ⟨"U", some bound⟩)]

/-- Whether what `Box<U>` stands for, with `U` below `string`, is assignable to `struct { x: string }`. -/
def boxHoldsString : Infer Bool := do
  let box ← Checker.resolve boxes (boxOf .string)
  return (← Checker.compare boxes box (.struct [{ name := "x", type := .string }] true)).holds

/-- If no more than two named types may be resolved inside each other, `B` stands for `u8` on a new checker, but
not once `A` has been resolved: that fails at `C`, and the failure is kept for `B` as well. And `Box<U>` stands
for what it stood for when it was first met, whatever the bound of `U` was then. -/
theorem resolve_order :
    (Checker.resolve aliases (.reference 3 "B" [])).textFound { settings := { maxReferenceDepth := 2 } } =
        some "u8" ∧
      (do
        discard (Checker.resolve aliases (.reference 5 "A" []))
        Checker.resolve aliases (.reference 3 "B" [])).textFound { settings := { maxReferenceDepth := 2 } } =
        some "error<type 'C' expands too deeply>" ∧
      (boxHoldsString.run {}).toOption.map Prod.fst = some true ∧
      ((do discard (Checker.resolve boxes (boxOf (.prim .u8))); boxHoldsString).run {}).toOption.map Prod.fst =
        some false := by
  decide +kernel

end Ascribe
