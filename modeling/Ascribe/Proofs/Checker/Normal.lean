import Ascribe.Proofs.Checker.Placeholders

/-!
# Nullable types in normal form

A nullable layer never stands over a type that is nullable already, nor over `null`, `any` or an error
(`Ty.isNormal`). Annotations, optional accesses, safe casts, branches, and arguments that are solved or put in place of
a generic parameter all make nullable types, and all of them build the layer with `Ty.nullable`. So a type that a rule
gives is in normal form if the answers to its questions are, and what is kept or logged for later is one of these types
or part of one.

The same is not true of types that a host supplies, so sessions are restricted to those that supply types in normal form
(`Operation.Normal`).

## Key results

- `answers_normal`: questions are answered with types in normal form, which are all that is stored
- `ReachedBy.normal`: what a checker stores after a session is in normal form
- `ReachedBy.types_normal`: so are the types that a host is told
-/

namespace Ascribe

variable {p : Tree} {q : Queries} {c c' : Checker}

open Instantiation (Registration)

/-! ## What a checker stores -/

/-- Every type that a checker stores is in normal form: those of nodes, those that named types stand for, and the
arguments of instantiations. -/
structure Checker.Normal (c : Checker) : Prop where
  memo : ∀ node t, c.memo.get? node = some (.done t) → t.isNormal = true
  resolved : ∀ t ∈ c.resolved.values, t.isNormal = true
  registry : ∀ entry ∈ c.registry.entries, ∀ t ∈ entry.args, t.isNormal = true

namespace Checker.Normal

theorem new (settings : Settings) : Normal { settings } where
  memo node t hdone := by cases (NodeMap.get?_empty node).symm.trans hdone
  resolved t ht := absurd ht List.not_mem_nil
  registry entry hentry := absurd hentry List.not_mem_nil

/-- `Normal` depends on the finished types of the memo only. -/
theorem withMemo (h : c.Normal) {m : Memo}
    (hm : ∀ node t, m.get? node = some (.done t) → c.memo.get? node = some (.done t)) : Normal { c with memo := m } :=
  ⟨fun node t hdone => h.memo node t (hm node t hdone), h.resolved, h.registry⟩

theorem start (h : c.Normal) (node : NodeId) : Normal { c with memo := c.memo.start node } := by
  apply h.withMemo
  intro other t hdone
  rw [Memo.get?_start] at hdone
  split at hdone
  · cases hdone
  · exact hdone

theorem finish (h : c.Normal) (node : NodeId) {t : Ty} (ht : t.isNormal = true) :
    Normal { c with memo := c.memo.finish node t } := by
  refine ⟨fun other u hdone => ?_, h.resolved, h.registry⟩
  obtain ⟨slot, hslot, hget⟩ := c.memo.get?_finish_cases node t
  dsimp only at hdone
  rw [hget] at hdone
  split at hdone
  · -- the node itself is forgotten or kept with the type that was found
    rcases hslot with rfl | rfl
    · cases hdone
    · cases hdone
      exact ht
  · exact h.memo other u hdone

theorem keepResolved (h : c.Normal) (mark : Mark) (key : ReferenceKey) {t : Ty} (ht : t.isNormal = true) :
    (c.keepResolved mark key t).Normal := by
  unfold Checker.keepResolved
  split
  · exact ⟨h.memo, h.resolved, h.registry⟩
  · refine ⟨h.memo, fun u hu => ?_, h.registry⟩
    rcases Table.mem_values_insert hu with rfl | hold
    · exact ht
    · exact h.resolved u hold

theorem log (h : c.Normal) {call : Registration} (hcall : ∀ t ∈ call.args, t.isNormal = true) :
    Normal { c with registry := c.registry.log call } := by
  refine ⟨h.memo, h.resolved, fun entry hentry => ?_⟩
  rcases Instantiation.Registry.mem_entries_log hentry with hargs | hold
  · rw [hargs]
    exact hcall
  · exact h.registry entry hold

end Checker.Normal

theorem Checker.normal_logging : Checker.Logging .normal Checker.Normal where
  log _ _ hargs hc := hc.log fun t ht => Ty.isNormal_iff_inScope.mpr (hargs t ht)
  count hc := ⟨hc.memo, hc.resolved, hc.registry⟩

/-- Every tree is `InScope` of `normal`, which restricts nullable layers only. -/
theorem Tree.inScope_normal (p : Tree) : p.InScope False .normal :=
  ⟨fun _ => rfl, fun _ _ _ => rfl, fun _ => rfl, fun _ _ => rfl, False.elim, False.elim⟩

/-! ## Answers -/

namespace Typing

variable (h : q.Ensures False .normal Checker.Normal)

include h

theorem typeOf_normal (node : NodeId) :
    (typeOf p q node).Ensures False Checker.Normal (Ty.InScope .normal) := by
  refine fun c hc => ⟨fun v c' hrun => ?_, False.elim⟩
  obtain ⟨hdone, rfl⟩ | ⟨hopen, rfl⟩ | ⟨-, form, t, c₁, hform, hrule, rfl, rfl⟩ := typeOf_run_cases hrun
  · exact ⟨hc, Ty.isNormal_iff_inScope.mp (hc.memo node v hdone)⟩
  · -- an open node is answered with the placeholder
    rw [typeOf_run_open hopen] at hrun
    obtain ⟨rfl, -⟩ := Prod.mk.inj (Except.ok.inj hrun)
    refine ⟨hc.withMemo fun other t hdone => ?_, Ty.isNormal_iff_inScope.mp (by decide)⟩
    rwa [Memo.get?_observe] at hdone
  · have hrules := ruleFor_ensures h p.inScope_normal Checker.normal_logging (Tree.form?_eq_some_of_form hform)
    obtain ⟨hc₁, ht⟩ := (hrules _ (hc.start node)).1 t c₁ hrule
    have horigin : (t.orOrigin node).InScope .normal := ht.orOrigin rfl
    exact ⟨hc₁.finish node (Ty.isNormal_iff_inScope.mpr horigin), horigin⟩

theorem resolve_normal (references : Nat) {r : Reference Ty} (hr : (Shape.ref r).InScope .normal) :
    (resolve p q references r).Ensures False Checker.Normal (Ty.InScope .normal) := by
  refine fun c hc => ⟨fun v c' hrun => ?_, False.elim⟩
  obtain ⟨hkept, rfl⟩ | ⟨habsent, hdeep, rfl⟩ | ⟨-, -, c₁, hexpand, rfl⟩ := resolve_run_cases hrun
  · exact ⟨hc, Ty.isNormal_iff_inScope.mp (hc.resolved v (Table.mem_values_of_get? hkept))⟩
  · rw [resolve_run_deep habsent hdeep] at hrun
    obtain ⟨rfl, -⟩ := Prod.mk.inj (Except.ok.inj hrun)
    exact ⟨hc, Ty.error_inScope rfl⟩
  · have hmark : Checker.Normal { c with memo := c.memo.mark.2 } := hc.withMemo fun _ _ hdone => hdone
    have hexpands := expand_ensures h p.inScope_normal Checker.normal_logging hr
    obtain ⟨hc₁, hv⟩ := (hexpands _ hmark).1 v c₁ hexpand
    exact ⟨hc₁.keepResolved _ _ (Ty.isNormal_iff_inScope.mpr hv), hv⟩

end Typing

/-- `answers` about types in normal form are types in normal form, which are all that is stored on the way. -/
theorem answers_normal (p : Tree) (depth references : Nat) :
    (answers p depth references).Ensures False .normal Checker.Normal := by
  induction depth generalizing references with
  | zero => exact Queries.exhausted_ensures
  | succ depth ih =>
    have hhere := ih references
    rw [answers_succ]
    constructor
    case toFindsIn =>
      constructor
      · exact fun {node} _ => Typing.typeOf_normal hhere node
      · exact fun hshape ht => Typing.resolve_normal (ih (references + 1)) references (ht.shape hshape)
    case common => exact Typing.common_ensures hhere
    case member => exact fun ht => Typing.instanceMember_ensures hhere ht _
    case compare => exact fun ha he => hhere.step ha he
    case expected =>
      exact fun _ => Typing.expected_ensures p.inScope_normal hhere.toFindsIn fun _ hup => hhere.expected hup

/-! ## Sessions -/

/-- An operation that supplies types in normal form only. The log of instantiations is changed by a call. -/
def Operation.Normal : Operation → Prop
  | .ask _ query => ∀ t ∈ query.types, t.isNormal = true
  | .register change => ∃ call : Registration, (∀ t ∈ call.args, t.isNormal = true) ∧ change = (·.log call)
  | .invalidate _ _ | .clear => True

/-- `perform` of an operation that is `Normal` keeps what is stored in normal form. -/
theorem Operation.Normal.perform {op : Operation} (hop : op.Normal) (hc : c.Normal)
    (run : op.perform.run c = .ok ((), c')) : c'.Normal := by
  cases op with
  | ask about query =>
    simp only [Operation.perform, Query.run_ask] at run
    have hanswers := answers_normal about (Checker.questionDepth about c.settings) 0
    have htypes : ∀ t ∈ query.types, t.InScope .normal := fun t ht => Ty.isNormal_iff_inScope.mp (hop t ht)
    have hasked := Query.askOf_ensures hanswers about.inScope_normal (fun _ _ => rfl) htypes
    exact ((hasked c hc).1 _ _ run).1
  | invalidate about node =>
    obtain ⟨nodes, rfl⟩ := Checker.invalidate_run run
    refine ⟨fun other t hdone => ?_, fun t ht => absurd ht List.not_mem_nil, hc.registry⟩
    rcases Memo.get?_removeAll_cases c.memo nodes other with hnone | hsame
    · cases hnone.symm.trans hdone
    · exact hc.memo other t (hsame.symm.trans hdone)
  | clear =>
    obtain ⟨-, rfl⟩ := Prod.mk.inj (Except.ok.inj run)
    exact .new c.settings
  | register change =>
    obtain ⟨-, rfl⟩ := Prod.mk.inj (Except.ok.inj run)
    obtain ⟨call, hcall, rfl⟩ := hop
    exact hc.log hcall

/-- A checker is `Normal` after a session. -/
theorem ReachedBy.normal (h : ReachedBy Operation.Normal c) : c.Normal := by
  induction h with
  | new settings => exact .new settings
  | step _ op hop run ih => exact hop.perform ih run

/-- `isNormal` holds wherever a host meets a type. After any session that supplies types in normal form, about any trees
and with any settings, every type that the checker stores is in normal form: in the memo of node types, in the table of
resolved types and in the log of instantiations. So is the type of any node of any tree, and what any type in normal
form is resolved to. -/
theorem ReachedBy.types_normal (h : ReachedBy Operation.Normal c) :
    c.Normal ∧
      (∀ p node t c', (Checker.typeOf p node).run c = .ok (t, c') → t.isNormal = true ∧ c'.Normal) ∧
      ∀ p t u c', t.isNormal = true → (Checker.resolve p t).run c = .ok (u, c') → u.isNormal = true ∧ c'.Normal := by
  refine ⟨h.normal, fun p node t c' hrun => ?_, fun p t u c' ht hrun => ?_⟩
  · have hfound : ((Checker.answersFor p c.settings).typeOf node).Ensures False Checker.Normal (Ty.InScope .normal) :=
      (answers_normal p _ 0).typeOf rfl
    rw [Checker.typeOf, Checker.run_queries_bind] at hrun
    obtain ⟨hc', hnormal⟩ := (hfound c h.normal).1 t c' hrun
    exact ⟨Ty.isNormal_iff_inScope.mpr hnormal, hc'⟩
  · have hfound : ((Checker.answersFor p c.settings).resolveDeep t).Ensures False Checker.Normal (Ty.InScope .normal) :=
      (answers_normal p _ 0).resolveDeep (Ty.isNormal_iff_inScope.mp ht)
    rw [Checker.resolve, Checker.run_queries_bind] at hrun
    obtain ⟨hc', hnormal⟩ := (hfound c h.normal).1 u c' hrun
    exact ⟨Ty.isNormal_iff_inScope.mpr hnormal, hc'⟩

/-- A declaration `type Maybe<T> = T?`. -/
def maybes : Tree where
  nodes := #[
    { form := .genericParam "T" none, parent := some 3 },
    { form := .reference { name := "T", target := some 0 } [], parent := some 2 },
    { form := .nullableType 1, parent := some 3 },
    { form := .typeDecl { name := "Maybe", generics := [0], definition := 2 } }]

/-- Once the declaration has a type and a list of nullable bytes is logged, `Maybe<u8?>` is resolved to `u8?`: the
nullable argument is put under a nullable layer, and one of the two is left. -/
theorem maybes_normal :
    ∃ c t c', ReachedBy Operation.Normal c ∧ c.memo.get? 3 ≠ none ∧ c.registry.isEmpty = false ∧
      (Ty.reference 3 "Maybe" [(Ty.prim .u8).nullable]).isNormal = true ∧
      (Checker.resolve maybes (.reference 3 "Maybe" [(Ty.prim .u8).nullable])).run c = .ok (t, c') ∧
      t.text = "u8?" ∧ t.isNormal = true ∧ c.Normal ∧ c'.Normal := by
  let call : Registration := .cls 9 "List" [(Ty.prim .u8).nullable]
  let session : Infer (Bool × String) := do
    (Query.typeOf 3).ask maybes
    (Operation.register (·.log call)).perform
    let c ← get
    let t ← Checker.resolve maybes (.reference 3 "Maybe" [(Ty.prim .u8).nullable])
    return ((c.memo.get? 3).isSome && !c.registry.isEmpty, t.text)
  obtain ⟨answer, c₃, hsession, hanswer⟩ := Search.exists_run_of_any (x := session) (s := {})
    (P := fun answer => answer.1 && answer.2 == "u8?") (by decide +kernel)
  obtain ⟨_, c₁, hask, hrest⟩ := Search.run_bind_eq_ok.mp hsession
  obtain ⟨_, c₂, hlog, hrest⟩ := Search.run_bind_eq_ok.mp hrest
  obtain ⟨_, c, hget, hrest⟩ := Search.run_bind_eq_ok.mp hrest
  obtain ⟨rfl, rfl⟩ := Prod.mk.inj (Except.ok.inj hget)
  obtain ⟨t, c', hresolve, hreturn⟩ := Search.run_bind_eq_ok.mp hrest
  obtain ⟨rfl, rfl⟩ := Search.run_pure_eq_ok.mp hreturn
  have hsupplied : (Ty.reference 3 "Maybe" [(Ty.prim .u8).nullable]).isNormal = true := by decide +kernel
  have hcall : ∀ t ∈ call.args, t.isNormal = true := List.forall_mem_singleton.mpr (by decide +kernel)
  have hc₁ : ReachedBy Operation.Normal c₁ :=
    (ReachedBy.new {}).step (.ask maybes (.typeOf 3)) (fun t ht => absurd ht List.not_mem_nil) hask
  have hc : ReachedBy Operation.Normal c₂ := hc₁.step (.register (·.log call)) ⟨call, hcall, rfl⟩ hlog
  obtain ⟨hnormal, -, hresolved⟩ := ReachedBy.types_normal hc
  obtain ⟨ht, hc'⟩ := hresolved maybes _ t _ hsupplied hresolve
  simp only [Bool.and_eq_true, Bool.not_eq_true', beq_iff_eq] at hanswer
  obtain ⟨⟨hfiled, hlogged⟩, htext⟩ := hanswer
  exact ⟨c₂, t, _, hc, Option.isSome_iff_ne_none.mp hfiled, hlogged, hsupplied, hresolve, htext, ht, hnormal, hc'⟩

end Ascribe
