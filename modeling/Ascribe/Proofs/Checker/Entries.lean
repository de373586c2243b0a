import Ascribe.Proofs.Checker.Anchors

/-!
# What the memo holds for a node

While questions are answered the memo is written in two ways: a node of the tree is opened, and the innermost open node
is finished with the type that the rule of its form gave. So a property of entries holds of all of them as soon as it
holds of the nodes of the tree while they are open, and of the types that their rules give (`answers_entries`).
-/

namespace Ascribe

variable {p : Tree} {q : Queries} {K : NodeId → MemoEntry → Prop}

/-- Every entry of the memo has a property. -/
def Checker.Entries (K : NodeId → MemoEntry → Prop) (c : Checker) : Prop :=
  ∀ node entry, c.memo.get? node = some entry → K node entry

theorem Checker.entries_indifferent : Checker.Indifferent (Checker.Entries K) :=
  fun _ hmemo _ h node entry hentry => h node entry (hmemo ▸ hentry)

theorem Lockstep.preserving_effects {I : Checker → Prop} (hI : Checker.Indifferent I) : (preserving I).Effects :=
  .of_aside fun haside => haside.ensures hI

namespace Typing

variable (h : q.InStep (.preserving (Checker.Entries K)) q)

include h

theorem typeOf_entries (hopen : ∀ node form, p.form? node = some form → K node .inProgress)
    (hdone : ∀ (q : Queries) (node : NodeId) (form : Form) (c : Checker) (t : Ty) (c' : Checker),
      p.form? node = some form → (ruleFor p q node form).run c = .ok (t, c') → K node (.done (t.orOrigin node)))
    (node : NodeId) : (Lockstep.preserving (Checker.Entries K)).Rel (typeOf p q node) (typeOf p q node) := by
  refine fun c hc => ⟨fun v c' hrun => ⟨?_, trivial⟩, False.elim⟩
  obtain ⟨-, rfl⟩ | ⟨-, rfl⟩ | ⟨-, form, t, c₁, hform, hrule, rfl, rfl⟩ := typeOf_run_cases hrun
  · exact hc
  · intro other entry hentry
    exact hc other entry (Memo.get?_observe c.memo node other ▸ hentry)
  · have hform? := Tree.form?_eq_some_of_form hform
    have hstart : Checker.Entries K { c with memo := c.memo.start node } := by
      intro other entry hentry
      rw [Memo.get?_start] at hentry
      split at hentry
      · next heq =>
        cases hentry
        exact heq ▸ hopen node form hform?
      · exact hc other entry hentry
    have hrel := ruleFor_rel h p (Lockstep.preserving_effects Checker.entries_indifferent) node form
    obtain ⟨hc₁, -⟩ := (hrel _ hstart).1 t c₁ hrule
    -- only the entry of the node is new
    intro other entry hentry
    obtain ⟨slot, hslot, hget⟩ := c₁.memo.get?_finish_cases node (t.orOrigin node)
    dsimp only at hentry
    rw [hget] at hentry
    split at hentry
    · next heq =>
      subst heq
      rcases hslot with rfl | rfl
      · cases hentry
      · cases hentry
        exact hdone q other form _ t c₁ hform? hrule
    · exact hc₁ other entry hentry

theorem resolve_entries (references : Nat) (r : Reference Ty) :
    (Lockstep.preserving (Checker.Entries K)).Rel (resolve p q references r) (resolve p q references r) := by
  refine fun c hc => ⟨fun v c' hrun => ⟨?_, trivial⟩, False.elim⟩
  obtain ⟨-, rfl⟩ | ⟨-, -, rfl⟩ | ⟨-, -, c₁, hexpand, rfl⟩ := resolve_run_cases hrun
  · exact hc
  · exact hc
  · have hrel := expand_rel h p (Lockstep.preserving_effects Checker.entries_indifferent) r
    obtain ⟨hc₁, -⟩ := (hrel { c with memo := c.memo.mark.2 } hc).1 v c₁ hexpand
    intro other entry hentry
    rw [Checker.keepResolved_memo] at hentry
    exact hc₁ other entry hentry

end Typing

/-- `answers` preserve `Entries K` if `K` holds of the nodes of a tree while they are open and of the types that
`ruleFor` gives. -/
theorem answers_entries (hopen : ∀ node form, p.form? node = some form → K node .inProgress)
    (hdone : ∀ (q : Queries) (node : NodeId) (form : Form) (c : Checker) (t : Ty) (c' : Checker),
      p.form? node = some form → (Typing.ruleFor p q node form).run c = .ok (t, c') → K node (.done (t.orOrigin node)))
    (depth references : Nat) :
    (answers p depth references).InStep (.preserving (Checker.Entries K)) (answers p depth references) := by
  induction depth generalizing references with
  | zero => exact Queries.exhausted_inStep
  | succ depth ih =>
    rw [answers_succ]
    exact Queries.above_inStep (ih references) (Typing.typeOf_entries (ih references) hopen hdone)
      (Typing.resolve_entries (ih (references + 1)) references)

end Ascribe
