import Ascribe.Proofs.Checker.Consistency
import Ascribe.Proofs.Checker.Entries
import Ascribe.Proofs.Checker.Termination

/-!
# Where the placeholder ends up

A type that can only be said in terms of itself is the placeholder: the variable of `let x = x` is given the placeholder
for its type, which is kept like any other type and of which no diagnostic tells (`selfNamed_escapes`).

This does not happen to a function, a class or any other node whose form builds a type of its own, however the types of
other nodes depend on it (`Form.buildsType`). For all other nodes it depends on what becomes of the nodes that a search
comes back to. If each of them ends up with a type that does not mention the placeholder, then so does every node that
is asked about: the placeholder gets out only through a node that is typed in terms of itself.

## Key results

- `AskedAbout.builds`: what is kept for a node that builds its type is not the placeholder
- `AskedAnchored.settled`: after anchored questions no type that is kept mentions the placeholder
- `Checker.typeOf_settles`: where the placeholder does not end up
-/

namespace Ascribe

variable {p : Tree} {q : Queries} {c c' : Checker} {node : NodeId}

/-! ## Forms that build their type -/

/-- Whether a form has a type of its own making, whatever the types are that it is made from. -/
def Form.buildsType : Form → Bool
  | .funDecl _ | .method _ | .interfaceMethod _ | .lambda _ | .functionType .. => true
  | .structType _ | .classType _ | .interfaceType .. | .variantType _ | .ctorDecl .. => true
  | .enumType .. | .stringEnumType _ | .genericParam .. => true
  | .primitive _ | .arrayType _ | .tupleType _ | .tuple _ => true
  | .int _ | .float _ | .bool _ | .string _ | .null | .this | .instanceCheck .. => true
  | _ => false

namespace Typing

theorem functionType_returns (genericNodes paramNodes : List NodeId) (result body : Option NodeId) (kind : FnKind) :
    (functionType p q genericNodes paramNodes result body kind).Returns fun t => t.isPlaceholder = false :=
  .after fun _ => .after fun _ => .after fun _ => .pure rfl

theorem constructorType_returns (node : NodeId) (name : String) (params : List NodeId) :
    (constructorType p q node name params).Returns fun t => t.isPlaceholder = false := by
  unfold constructorType
  split
  · exact .pure rfl
  · exact .after fun _ => .after fun _ => .pure rfl

theorem thisType_returns (node : NodeId) : (thisType p q node).Returns fun t => t.isPlaceholder = false := by
  refine .after fun cls => ?_
  split
  · split
    · exact .after fun _ => .pure rfl
    · exact .pure rfl
  · exact .pure rfl

theorem intType_returns (node : NodeId) (text : String) :
    (intType p q node text).Returns fun t => t.isPlaceholder = false := by
  unfold intType
  split
  · next problem hread => exact .pure (readInteger_isPlaceholder hread)
  · split
    · exact .pure rfl
    · refine .after fun settings => .after fun kind => ?_
      split
      · exact .pure rfl
      · exact .pure rfl

theorem floatType_returns (node : NodeId) (text : String) :
    (floatType q node text).Returns fun t => t.isPlaceholder = false := by
  unfold floatType
  split
  · next problem hread => exact .pure (readDecimal_isPlaceholder hread)
  · exact .pure rfl
  · exact .after fun settings => .after fun kind => .pure rfl

theorem enumType_isPlaceholder (cases : List NodeId) (repr : Option Primitive) :
    (enumType p cases repr).isPlaceholder = false := by
  unfold enumType
  split
  · rfl
  · next problem hcases => exact enumCases_isPlaceholder hcases

/-- `ruleFor` a form that `buildsType` does not give the placeholder, whatever the answers to its questions. -/
theorem ruleFor_returns {form : Form} (h : form.buildsType = true) (node : NodeId) :
    (ruleFor p q node form).Returns fun t => t.isPlaceholder = false := by
  cases form <;> simp only [Form.buildsType, Bool.false_eq_true] at h <;> simp only [ruleFor]
  case funDecl | method | interfaceMethod | lambda | functionType => exact functionType_returns _ _ _ _ _
  case classType =>
    exact .after fun _ => .after fun _ => .after fun _ => .after fun _ => .pure rfl
  case interfaceType => exact .after fun _ => .after fun _ => .pure rfl
  case structType | variantType | genericParam | arrayType | tupleType | tuple => exact .after fun _ => .pure rfl
  case ctorDecl => exact constructorType_returns node _ _
  case enumType => exact .pure (enumType_isPlaceholder _ _)
  case this => exact thisType_returns node
  case int => exact intType_returns node _
  case float => exact floatType_returns node _
  all_goals exact .pure rfl

end Typing

/-! ## Questions about one tree -/

/-- What a checker keeps for the nodes of a tree that build their type is not the placeholder. -/
def Checker.Builds (p : Tree) (c : Checker) : Prop :=
  ∀ {node form t}, p.form? node = some form → form.buildsType = true → c.memo.get? node = some (.done t) →
    t.isPlaceholder = false

/-- `answers` preserve `Builds`: no placeholder is kept for a node whose form builds its type. -/
theorem answers_builds (p : Tree) (depth references : Nat) :
    (answers p depth references).InStep (.preserving (Checker.Builds p)) (answers p depth references) := by
  have hentries : Checker.Builds p = Checker.Entries fun node entry => ∀ form t, p.form? node = some form →
      form.buildsType = true → entry = .done t → t.isPlaceholder = false := by
    funext c
    apply propext
    constructor
    · rintro h node _ hentry form t hform hbuilds rfl
      exact h hform hbuilds hentry
    · exact fun h node form t hform hbuilds hdone => h node _ hdone form t hform hbuilds rfl
  rw [hentries]
  apply answers_entries
  · intro node form _ _ t _ _ hentry
    cases hentry
  · intro q node form c t c' hform hrule form' u hform' hbuilds hentry
    obtain rfl : form' = form := Option.some.inj (hform'.symm.trans hform)
    cases hentry
    have ht := Typing.ruleFor_returns hbuilds node _ t c' hrule
    unfold Ty.orOrigin
    split <;> exact ht

theorem AskedAbout.reached (h : AskedAbout p c) : Reached c := by
  induction h with
  | new settings => exact .new settings
  | step _ query _ run ih => exact ih.step (.ask p query) run

theorem AskedAbout.builds (h : AskedAbout p c) : c.Builds p := by
  induction h with
  | new settings =>
    intro node form t _ _ hdone
    cases hdone
  | step _ query _ run ih =>
    rw [Query.run_ask] at run
    exact ((Query.askOf_rel (answers_builds p _ 0) p query _ ih).1 _ _ run).1

/-! ## Anchored questions -/

/-- The answers to the questions of a host that come back to anchors only. -/
def Checker.anchoredFor (anchor : NodeId → Bool) (p : Tree) (settings : Settings) : Queries :=
  anchored anchor p (questionDepth p settings) 0

/-- The checkers that questions about one tree lead to, from a new one with any settings, if each question comes back
only to nodes that end up with a type that does not mention the placeholder. -/
inductive AskedAnchored (p : Tree) : Checker → Prop where
  | new (settings : Settings) : AskedAnchored p { settings }
  | step {c c' : Checker} (h : AskedAnchored p c) (anchor : NodeId → Bool) (query : Query)
    (run : (query.askOf p (Checker.anchoredFor anchor p c.settings)).run c = .ok ((), c'))
    (settles : c'.SettlesAnchors anchor) : AskedAnchored p c'

theorem AskedAnchored.reached (h : AskedAnchored p c) : Reached c := by
  induction h with
  | new settings => exact .new settings
  | step _ anchor query run _ ih =>
    refine ih.step (.ask p query) ?_
    show (query.ask p).run _ = _
    rw [Query.run_ask]
    exact Query.askOf_rel (answers_refines_anchored anchor p _ 0) p query _ _ _ run

/-- What is `Advancing` finds nothing that depends on a placeholder between questions, when no node is open. -/
theorem Reached.advances {α : Type} {x : Infer α} {v : α} {anchor : NodeId → Bool} {P : Checker → α → Checker → Prop}
    (h : Reached c) (hc : c.Settled) (hx : x.Advancing anchor P) (hrun : x.run c = .ok (v, c'))
    (hanchors : c'.SettlesAnchors anchor) : c'.Settled ∧ P c v c' := by
  have hsteady : c.Steady anchor := by
    refine ⟨hc, h.memo_consistent, ?_⟩
    unfold Memo.Layered
    rw [h.idle.frames]
    exact .nil
  have hadvances := hx.advances hrun hsteady hanchors
  refine ⟨hadvances.steady.toSettled, hadvances.holds.resolve_left fun hstirred => ?_⟩
  have hreaches := hstirred.2
  rw [hadvances.moves.frames.length, h.idle.frames] at hreaches
  simp at hreaches

/-- After `AskedAnchored` questions a checker is `Settled`. -/
theorem AskedAnchored.settled (h : AskedAnchored p c) : c.Settled := by
  induction h with
  | new settings =>
    constructor
    · intro node t hdone
      cases hdone
    · intro key t hkept
      cases hkept
  | @step c c' hasked anchor query run settles ih =>
    have hquery := Query.askOf_rel (anchored_calm anchor p (Checker.questionDepth p c.settings) 0).1 p query
    exact (hasked.reached.advances ih hquery run settles).1

/-- Where `typeOf` does not give the placeholder. The type of a node whose form `buildsType` is not the placeholder,
after any questions about its tree. For any other node let some nodes be the anchors. If the search for the type comes
back to anchors only, and each of them is finished with a type that does not mention the placeholder, as in all earlier
questions, then the type that a host is told does not mention it either, and nor does any other type that is kept. -/
theorem Checker.typeOf_settles (p : Tree) (node : NodeId) :
    (∀ c form t c', AskedAbout p c → p.form? node = some form → form.buildsType = true →
      (typeOf p node).run c = .ok (t, c') → t.isPlaceholder = false) ∧
    ∀ c anchor t c', AskedAnchored p c → ((anchoredFor anchor p c.settings).typeOf node).run c = .ok (t, c') →
      c'.SettlesAnchors anchor → (typeOf p node).run c = .ok (t, c') ∧ t.isPlaceholder = false ∧ t.isSettled = true ∧
        c'.Settled := by
  refine ⟨fun c form t c' hasked hform hbuilds hrun => ?_, fun c anchor t c' hasked hrun hanchors => ?_⟩
  · have hkept := typeOf_kept hasked.reached.idle hrun
    rw [typeOf, run_queries_bind] at hrun
    obtain ⟨hc', -⟩ := ((answers_builds p _ 0).typeOf node c hasked.builds).1 t c' hrun
    exact hc' hform hbuilds hkept
  · have hfound := anchored_typeOf_advancing anchor p (questionDepth p c.settings) 0 node
    obtain ⟨hsettled, ht⟩ := hasked.reached.advances hasked.settled hfound hrun hanchors
    refine ⟨?_, Ty.isPlaceholder_of_isSettled ht, ht, hsettled⟩
    rw [typeOf, run_queries_bind]
    exact (answers_refines_anchored anchor p _ 0).typeOf node c t c' hrun

/-- Whether an entry does not keep a type that mentions the placeholder. -/
def MemoEntry.isSettled : MemoEntry → Bool
  | .inProgress => true
  | .done t => t.isSettled

/-- The search for the type of `f` comes back to `f` while `g` is typed, and both parts apply to it. -/
theorem mutualCalls_settles :
    ∃ t c', AskedAbout mutualCalls {} ∧ AskedAnchored mutualCalls {} ∧
      (mutualCalls.form? 0).any Form.buildsType = true ∧
      ((Checker.anchoredFor (· == 0) mutualCalls {}).typeOf 0).run {} = .ok (t, c') ∧
      c'.SettlesAnchors (· == 0) ∧ (Checker.typeOf mutualCalls 0).run {} = .ok (t, c') ∧
      t.isPlaceholder = false ∧ t.isSettled = true ∧ c'.Settled := by
  let search : Infer Bool := do
    let _ ← (Checker.anchoredFor (· == 0) mutualCalls {}).typeOf 0
    return ((← get).memo.get? 0).all MemoEntry.isSettled
  obtain ⟨answer, c₁, hsearch, hanswer⟩ :=
    Search.exists_run_of_any (x := search) (s := {}) (P := id) (by decide +kernel)
  obtain ⟨t, c', hrun, hrest⟩ := Search.run_bind_eq_ok.mp hsearch
  have hanchors : c'.SettlesAnchors (· == 0) := by
    intro node u hnode hdone
    obtain rfl : node = 0 := by simpa using hnode
    obtain ⟨c₂, c₃, hget, hreturn⟩ := Search.run_bind_eq_ok.mp hrest
    obtain ⟨rfl, rfl⟩ := Prod.mk.inj (Except.ok.inj hget)
    rw [hdone] at hreturn
    obtain ⟨rfl, -⟩ := Search.run_pure_eq_ok.mp hreturn
    exact hanswer
  obtain ⟨hbuilds, hsettles⟩ := Checker.typeOf_settles mutualCalls 0
  obtain ⟨hfound, -, ht, hc'⟩ := hsettles {} (· == 0) t c' (.new {}) hrun hanchors
  exact ⟨t, c', .new {}, .new {}, rfl, hrun, hanchors, hfound,
    hbuilds {} _ t c' (.new {}) rfl rfl hfound, ht, hc'⟩

/-- The variable of `let x = x`. -/
def selfNamed : Tree where
  nodes := #[
    { form := .varDecl { name := "x", init := some 1 } },
    { form := .name { name := "x", target := some 0 }, parent := some 0 }]

/-- The variable of `let x = x` is given the placeholder for its type, which is kept, and nothing is reported. -/
theorem selfNamed_escapes :
    ∃ t c₁ c₂, AskedAbout selfNamed {} ∧ (Checker.typeOf selfNamed 0).run {} = .ok (t, c₁) ∧ t.isPlaceholder = true ∧
      c₁.memo.get? 0 = some (.done t) ∧ (Checker.diagnostics selfNamed 0).run c₁ = .ok ([], c₂) := by
  let session : Infer Bool := do
    let t ← Checker.typeOf selfNamed 0
    let found ← Checker.diagnostics selfNamed 0
    return t.isPlaceholder && found.isEmpty
  obtain ⟨answer, c₂, hsession, hanswer⟩ :=
    Search.exists_run_of_any (x := session) (s := {}) (P := id) (by decide +kernel)
  obtain ⟨t, c₁, htype, hrest⟩ := Search.run_bind_eq_ok.mp hsession
  obtain ⟨found, c₃, hfound, hreturn⟩ := Search.run_bind_eq_ok.mp hrest
  obtain ⟨rfl, rfl⟩ := Search.run_pure_eq_ok.mp hreturn
  obtain ⟨ht, hempty⟩ : t.isPlaceholder = true ∧ found = [] := by simpa using hanswer
  subst hempty
  exact ⟨t, c₁, c₂, .new {}, htype, ht, Checker.typeOf_kept (Reached.new {}).idle htype, hfound⟩

end Ascribe
