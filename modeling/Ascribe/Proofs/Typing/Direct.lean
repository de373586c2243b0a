import Ascribe.Proofs.Search.Returns
import Ascribe.Proofs.Typing.Lockstep

/-!
# Answers without a memo

The rules say what the type of a node is and what a named type stands for; the memos only spare work. Here the
same rules answer each other's questions without any memo (`direct`). A question that comes back to itself
then gets no answer, and neither does one that resolves more named types inside each other than the settings
allow: there is nothing that such answers could be compared with. The named types that may be met are given
by a test, `known`, since the memo tells named types apart by their texts only.

`guarded` keeps the memos and refuses only what `direct` refuses: a named type that is not in the memo and is not
known or too deep.

## Key results

- `direct_refines`: going deeper, or below fewer named types, changes no direct answer
- `answers_refines`: the answers are the guarded answers wherever the latter exist
-/

namespace Ascribe

namespace Typing

variable (p : Tree) (q : Queries) (known : Reference Ty → Bool)

/-- The type of a node by its rule. -/
def ruleType (node : NodeId) : Infer Ty := do
  let form ← Search.ofWalk (p.form node)
  return (← ruleFor p q node form).orOrigin node

/-- Refuse a named type that is not known or is resolved inside too many others. -/
def permit (depth : Nat) (r : Reference Ty) : Infer Unit := do
  let settings ← Infer.settings
  if known r ∧ depth < settings.maxReferenceDepth then return else Search.exhausted

/-- What a named type stands for by its declaration, if it is permitted. -/
def permitExpand (depth : Nat) (r : Reference Ty) : Infer Ty := do
  permit known depth r
  expand p q r

/-- What a named type stands for through the memo, if it is in the memo or is permitted. -/
def permitResolve (depth : Nat) (r : Reference Ty) : Infer Ty := do
  match (← get).resolved.get? r.key with
  | some _ => resolve p q depth r
  | none =>
    permit known depth r
    resolve p q depth r

end Typing

variable (p : Tree) (known : Reference Ty → Bool)

/-- The answers that the rules give without a memo. -/
def direct : Nat → Nat → Queries
  | 0, _ => .exhausted
  | depth + 1, references =>
    .above p (fun node => Typing.ruleType p (direct depth references) node)
      (fun r => Typing.permitExpand p (direct depth (references + 1)) known references r)
      fun _ => direct depth references

/-- The answers through the memos, where every named type that is new to its memo must be permitted. -/
def guarded : Nat → Nat → Queries
  | 0, _ => .exhausted
  | depth + 1, references =>
    .above p (fun node => Typing.typeOf p (guarded depth references) node)
      (fun r => Typing.permitResolve p (guarded depth (references + 1)) known references r)
      fun _ => guarded depth references

variable {p known}

theorem Typing.ruleType_rel {L : Lockstep Checker Checker} {q r : Queries} (h : q.InStep L r)
    (effects : L.Effects) (node : NodeId) : L.Rel (ruleType p q node) (ruleType p r node) :=
  L.bind (L.ofWalk _) fun form => L.bind (ruleFor_rel h p effects node form) fun _ => L.pure _

/-! ## Refinement -/

/-- A search that finds what another one finds, with the same effect. -/
def Lockstep.refines : Lockstep Checker Checker where
  Rel x y := ∀ c v c', y.run c = .ok (v, c') → x.run c = .ok (v, c')
  pure _ := fun _ _ _ h => h
  throw _ := fun _ _ _ h => h
  bind := by
    intro α β x y k l hx hk c w c' h
    obtain ⟨v, c₁, hv, hw⟩ := Search.run_bind_eq_ok.mp h
    exact Search.run_bind_eq_ok.mpr ⟨v, c₁, hx c v c₁ hv, hk v c₁ w c' hw⟩

namespace Lockstep

theorem refines_refl {α : Type} (x : Infer α) : refines.Rel x x :=
  fun _ _ _ h => h

theorem refines_effects : refines.Effects :=
  .of_aside fun _ => refines_refl _

theorem refines_exhausted {α : Type} (x : Infer α) : refines.Rel x Search.exhausted :=
  fun _ _ _ h => nomatch h

end Lockstep

theorem Typing.run_permit {depth : Nat} {r : Reference Ty} {c c' : Checker} :
    (permit known depth r).run c = .ok ((), c') ↔
      (known r = true ∧ depth < c.settings.maxReferenceDepth) ∧ c' = c := by
  have hrun : (permit known depth r).run c =
      (if known r ∧ depth < c.settings.maxReferenceDepth then pure () else Search.exhausted : Infer Unit).run c :=
    rfl
  rw [hrun]
  split
  · next h =>
    rw [Search.run_pure_eq_ok]
    simp only [h, and_self, true_and]
  · next h =>
    constructor
    · intro hthrow
      exact nomatch hthrow
    · rintro ⟨hpermitted, -⟩
      exact absurd hpermitted h

/-- `permitResolve` of a named type is `resolve`, and the type is in the memo or permitted. -/
theorem Typing.run_permitResolve {q : Queries} {depth : Nat} {r : Reference Ty} {c c' : Checker} {t : Ty} :
    (permitResolve p q known depth r).run c = .ok (t, c') ↔
      (c.resolved.get? r.key = none → known r = true ∧ depth < c.settings.maxReferenceDepth) ∧
        (resolve p q depth r).run c = .ok (t, c') := by
  cases hentry : c.resolved.get? r.key with
  | some kept =>
    simp only [permitResolve, StateT.run_bind, StateT.run_get, pure_bind, hentry, reduceCtorEq,
      false_implies, true_and]
  | none =>
    simp only [permitResolve, StateT.run_bind, StateT.run_get, pure_bind, hentry, true_implies, bind_eq_ok,
      Prod.exists]
    constructor
    · rintro ⟨_, c₁, hpermit, hrun⟩
      obtain ⟨hpermitted, rfl⟩ := run_permit.mp hpermit
      exact ⟨hpermitted, hrun⟩
    · rintro ⟨hpermitted, hrun⟩
      exact ⟨(), c, run_permit.mpr ⟨hpermitted, rfl⟩, hrun⟩

/-- `direct` gives the same answers when it goes deeper, or below fewer named types. -/
theorem direct_refines {depth depth' references references' : Nat} (hdepth : depth ≤ depth')
    (hreferences : references' ≤ references) :
    (direct p known depth' references').InStep .refines (direct p known depth references) := by
  induction depth generalizing depth' references references' with
  | zero => exact Queries.inStep_exhausted Lockstep.refines_exhausted _
  | succ depth ih =>
    obtain ⟨depth', rfl⟩ : ∃ n, depth' = n + 1 := Nat.exists_eq_add_one.mpr (by omega)
    have hdepth : depth ≤ depth' := by omega
    -- named types are permitted below fewer others if they are below more
    have hq := ih hdepth hreferences
    have hinner := ih hdepth (Nat.succ_le_succ hreferences)
    refine Queries.above_inStep hq (Typing.ruleType_rel hq Lockstep.refines_effects) fun r => ?_
    refine Lockstep.refines.bind ?_ fun _ => Typing.expand_rel hinner p Lockstep.refines_effects r
    intro c v c' hrun
    obtain ⟨⟨hknown, hlt⟩, rfl⟩ := Typing.run_permit.mp hrun
    exact Typing.run_permit.mpr ⟨⟨hknown, by omega⟩, rfl⟩

namespace Typing

variable {q r : Queries} (h : q.InStep .refines r)

include h

theorem typeOf_refines (node : NodeId) : Lockstep.refines.Rel (typeOf p q node) (typeOf p r node) := by
  let L := Lockstep.refines
  have hrefl {α : Type} (x : Infer α) : L.Rel x x := Lockstep.refines_refl x
  unfold typeOf
  refine L.bind (hrefl _) fun c => ?_
  -- only the rule of an absent node asks questions
  split
  · exact hrefl _
  · exact hrefl _
  · refine L.bind (hrefl _) fun form => L.bind (hrefl _) fun _ => ?_
    exact L.bind (ruleFor_rel h p Lockstep.refines_effects node form) fun t => hrefl _

theorem resolve_refines (depth : Nat) (ref : Reference Ty) :
    Lockstep.refines.Rel (resolve p q depth ref) (resolve p r depth ref) := by
  let L := Lockstep.refines
  have hrefl {α : Type} (x : Infer α) : L.Rel x x := Lockstep.refines_refl x
  unfold resolve
  refine L.bind (hrefl _) fun c => ?_
  split
  · exact hrefl _
  · split
    · exact hrefl _
    · refine L.bind (hrefl _) fun _ => ?_
      exact L.bind (expand_rel h p Lockstep.refines_effects ref) fun t => hrefl _

end Typing

/-- `answers` are those of `guarded` wherever the latter exist. -/
theorem answers_refines (depth references : Nat) :
    (answers p depth references).InStep .refines (guarded p known depth references) := by
  induction depth generalizing references with
  | zero => exact Queries.inStep_exhausted Lockstep.refines_exhausted _
  | succ depth ih =>
    rw [answers_succ]
    refine Queries.above_inStep (ih references) (Typing.typeOf_refines (ih references)) fun r => ?_
    intro c v c' hrun
    refine Typing.resolve_refines (ih (references + 1)) references r c v c' ?_
    exact (Typing.run_permitResolve.mp hrun).2

end Ascribe
