import Ascribe.Assignability.Cast
import Ascribe.Proofs.Search.Lockstep

/-!
# Comparisons in lockstep

A comparison asks its questions of a resolver and of the comparison of parts. If these are in lockstep with
those of another comparer, then so is everything a comparer does: following aliases, collecting the methods
of interfaces, a step of a comparison (`Comparer.InStep.step`) and a cast (`Comparer.InStep.castSafety`).
-/

namespace Ascribe

variable {σ τ : Type} {L : Lockstep σ τ}

/-- Two resolvers whose answers are in lockstep. -/
def Resolver.InStep (L : Lockstep σ τ) (resolve : Resolver σ) (resolve' : Resolver τ) : Prop :=
  ∀ r, L.Rel (resolve r) (resolve' r)

namespace Resolver.InStep

variable {resolve : Resolver σ} {resolve' : Resolver τ} (h : resolve.InStep L resolve')

include h

theorem follow (steps : Nat) (decl : Option NodeId) (t : Ty) :
    L.Rel (resolve.follow steps decl t) (resolve'.follow steps decl t) := by
  induction steps generalizing decl t with
  | zero => exact L.pure (decl, t)
  | succ steps ih =>
    simp only [Resolver.follow]
    split
    · exact L.pure (decl, t)
    · next r _ =>
      refine L.bind (h r) fun next => ?_
      split
      · exact L.pure (some r.decl, t)
      · exact ih (some r.decl) next

theorem declared (t : Ty) : L.Rel (resolve.declared t) (resolve'.declared t) :=
  h.follow maxAliasChain none t

theorem target (t : Ty) : L.Rel (resolve.target t) (resolve'.target t) :=
  Lockstep.map Prod.snd (h.declared t)

theorem inherited (visits : Nat) (seen pending : List Ty) :
    L.Rel (resolve.inherited visits seen pending) (resolve'.inherited visits seen pending) := by
  induction visits generalizing seen pending with
  | zero => exact L.pure []
  | succ visits ih =>
    simp only [Resolver.inherited]
    split
    · exact L.pure []
    · next t rest _ =>
      refine L.bind (h.target t) fun found => ?_
      split
      · next body _ => exact L.bind (ih _ _) fun methods => L.pure (body.methods ++ methods)
      · exact ih _ _

theorem interfaceMethods (body : InterfaceBody Ty) :
    L.Rel (resolve.interfaceMethods body) (resolve'.interfaceMethods body) :=
  L.bind (h.inherited _ _ _) fun methods => L.pure (body.methods ++ methods)

end Resolver.InStep

namespace Comparer

/-- Two comparers whose answers are in lockstep. -/
structure InStep (L : Lockstep σ τ) (c : Comparer σ) (d : Comparer τ) : Prop where
  resolve : c.resolve.InStep L d.resolve
  compare : ∀ assumed actual expected,
    L.Rel (c.compare assumed actual expected) (d.compare assumed actual expected)

theorem accept_rel : L.Rel (accept : Search σ Verdict) accept :=
  L.pure _

theorem reject_rel (why : Mismatch) : L.Rel (reject why : Search σ Verdict) (reject why) :=
  L.pure _

theorem every_rel {α : Type} {check : α → Search σ Verdict} {check' : α → Search τ Verdict}
    (h : ∀ x, L.Rel (check x) (check' x)) (xs : List α) : L.Rel (every check xs) (every check' xs) := by
  induction xs with
  | nil => exact accept_rel
  | cons x rest ih =>
    rw [every, every]
    refine L.bind (h x) fun verdict => ?_
    cases verdict with
    | ok _ => exact ih
    | error why => exact reject_rel why

/-- `accept` or `reject` by an answer keeps `Lockstep.Rel`. -/
theorem ite_rel {x : Search σ Bool} {y : Search τ Bool} (h : L.Rel x y) (why : Mismatch) :
    L.Rel (do if ← x then accept else reject why) (do if ← y then accept else reject why) := by
  refine L.bind h fun answer => ?_
  cases answer with
  | true => exact accept_rel
  | false => exact reject_rel why

namespace InStep

variable {c : Comparer σ} {d : Comparer τ} (h : c.InStep L d) (assumed : Assumptions)

include h

theorem holds (actual expected : Ty) :
    L.Rel (c.holds assumed actual expected) (d.holds assumed actual expected) :=
  Lockstep.map _ (h.compare assumed actual expected)

theorem element (actual expected : Ty) :
    L.Rel (c.element assumed actual expected) (d.element assumed actual expected) := by
  unfold Comparer.element
  split
  · exact L.pure true
  · split
    · exact L.pure false
    · exact h.holds assumed actual expected

theorem arguments (actual expected : Ty) (args params : List Ty) :
    L.Rel (c.arguments assumed actual expected args params)
      (d.arguments assumed actual expected args params) := by
  unfold Comparer.arguments
  split
  · exact reject_rel _
  · have hbad (p : Ty × Ty) := Lockstep.map Bool.not (h.element assumed p.1 p.2)
    refine L.bind (Lockstep.findM? hbad _) fun bad => ?_
    cases bad with
    | none => exact accept_rel
    | some p => exact reject_rel _

theorem signature (actual expected : Signature Ty) :
    L.Rel (c.signature assumed actual expected) (d.signature assumed actual expected) := by
  unfold Comparer.signature
  split
  · exact L.pure false
  · refine L.bind (Lockstep.allM (fun p : Param Ty × Param Ty => h.holds assumed p.2.type p.1.type) _) fun answer => ?_
    split
    · exact h.holds assumed actual.result expected.result
    · exact L.pure false

theorem conforms (available : List (Method Ty)) (body : InterfaceBody Ty) :
    L.Rel (c.conforms assumed available body) (d.conforms assumed available body) := by
  refine L.bind (h.resolve.interfaceMethods body) fun required => every_rel (fun method => ?_) required
  refine ite_rel (Lockstep.anyM (fun candidate => ?_) available) _
  split
  · exact h.signature assumed candidate.signature method.signature
  · exact L.pure false

theorem fields (actual expected : StructBody Ty) :
    L.Rel (c.fields assumed actual expected) (d.fields assumed actual expected) := by
  refine every_rel (fun field => ?_) expected.fields
  split
  · exact reject_rel _
  · next found _ => exact L.bind (h.compare assumed found.type field.type) fun verdict => L.pure _

theorem cases (actual expected : Ty) (available required : List (VariantCase Ty)) :
    L.Rel (c.cases assumed actual expected available required)
      (d.cases assumed actual expected available required) := by
  unfold Comparer.cases
  split
  · exact reject_rel _
  · refine every_rel (fun case => ?_) required
    split
    · exact reject_rel _
    · split
      · exact reject_rel _
      · exact every_rel (fun p : Field Ty × Field Ty => h.compare assumed p.1.type p.2.type) _

theorem structural (actual expected : Ty) :
    L.Rel (c.structural assumed actual expected) (d.structural assumed actual expected) := by
  unfold Comparer.structural
  split
  case h_1 =>
    split
    · exact accept_rel
    · exact reject_rel _
  case h_2 =>
    split
    · exact h.compare assumed _ expected
    · exact reject_rel _
  case h_3 => exact every_rel (fun m => h.compare assumed m expected) _
  case h_4 => exact ite_rel (Lockstep.anyM (h.holds assumed actual) _) _
  case h_5 => exact every_rel (h.compare assumed actual) _
  case h_6 => exact ite_rel (Lockstep.anyM (fun m => h.holds assumed m expected) _) _
  case h_7 => exact ite_rel (h.element assumed _ _) _
  case h_8 =>
    split
    · exact reject_rel _
    · exact every_rel (fun p : Ty × Ty => h.compare assumed p.1 p.2) _
  case h_9 => exact h.fields assumed _ _
  case h_10 => exact h.conforms assumed _ _
  case h_11 => exact L.bind (h.resolve.interfaceMethods _) fun methods => h.conforms assumed methods _
  case h_12 => exact h.compare assumed _ expected
  case h_13 =>
    split
    · exact reject_rel _
    · exact h.arguments assumed actual expected _ _
  case h_14 => exact h.cases assumed actual expected _ _
  case h_15 => exact ite_rel (h.signature assumed _ _) _
  case h_16 => exact ite_rel (h.signature assumed _ _) _
  case h_17 =>
    split
    · exact accept_rel
    · exact reject_rel _

theorem resolvedTypes (actual expected : Ty) :
    L.Rel (c.resolvedTypes assumed actual expected) (d.resolvedTypes assumed actual expected) := by
  have hunnamed (a e : Ty) : L.Rel (resolvedTypes.unnamed c assumed actual expected a e)
      (resolvedTypes.unnamed d assumed actual expected a e) := by
    unfold resolvedTypes.unnamed
    split
    · exact accept_rel
    · exact L.bind (h.compare assumed a e) fun verdict => L.pure _
  have hsame (a e : Ty) : L.Rel (if a == e then accept else reject (.unlike actual expected))
      (if a == e then accept else reject (.unlike actual expected)) := by
    split
    · exact accept_rel
    · exact reject_rel _
  refine L.bind (h.resolve.declared actual) fun a => L.bind (h.resolve.declared expected) fun e => ?_
  dsimp only
  split
  · split
    · split
      · exact reject_rel _
      · exact hsame _ _
    · exact hunnamed _ _
  · exact hsame _ _
  · exact hsame _ _
  · exact hunnamed _ _

theorem named (actual expected : Ty) :
    L.Rel (c.named assumed actual expected) (d.named assumed actual expected) := by
  unfold Comparer.named
  dsimp only
  split
  · exact accept_rel
  · exact h.resolvedTypes _ actual expected

theorem general (actual expected : Ty) :
    L.Rel (c.general assumed actual expected) (d.general assumed actual expected) := by
  unfold Comparer.general
  split
  · exact h.structural assumed actual expected
  · exact h.named assumed actual expected

theorem step (actual expected : Ty) :
    L.Rel (c.step assumed actual expected) (d.step assumed actual expected) := by
  unfold Comparer.step
  split
  · exact accept_rel
  · split
    · exact accept_rel
    · split
      case h_1 => exact accept_rel
      case h_2 => exact h.compare assumed _ _
      case h_3 => exact h.compare assumed _ _
      case h_4 => exact reject_rel _
      case h_5 =>
        split
        · exact h.arguments assumed actual expected _ _
        · exact h.general assumed actual expected
      case h_6 =>
        split
        · exact h.arguments assumed actual expected _ _
        · exact h.general assumed actual expected
      case h_7 => exact h.general assumed actual expected

omit assumed in
theorem castSafety (source target : Ty) :
    L.Rel (c.castSafety source target) (d.castSafety source target) := by
  have hunwraps (a e : Ty) : L.Rel (c.unwraps a e) (d.unwraps a e) := by
    unfold Comparer.unwraps
    split
    · exact h.holds [] _ _
    · exact L.pure false
  have hyes (x : Search σ CastSafety) (y : Search τ CastSafety) (answer : Bool) (safety : CastSafety)
      (hrest : L.Rel x y) : L.Rel (if answer then pure safety else x) (if answer then pure safety else y) := by
    split
    · exact L.pure safety
    · exact hrest
  refine L.bind (h.holds [] source target) fun answer => hyes _ _ _ _ ?_
  refine L.bind (h.resolve.target source) fun source => L.bind (h.resolve.target target) fun target => ?_
  refine hyes _ _ _ _ (L.bind (hunwraps source target) fun answer => hyes _ _ _ _ ?_)
  exact L.bind (h.holds [] target source) fun answer => hyes _ _ _ _ (L.pure CastSafety.unrelated)

end InStep

end Comparer

/-- `compareWithin` of a greater depth does the same, unless the other one goes too deep. -/
theorem compareWithin_deepens (resolve : Resolver σ) {depth depth' : Nat} (hdepth : depth ≤ depth')
    (assumed : Assumptions) (actual expected : Ty) :
    (Lockstep.deepens σ).Rel (compareWithin resolve depth' assumed actual expected)
      (compareWithin resolve depth assumed actual expected) := by
  induction depth generalizing depth' assumed actual expected with
  | zero => exact Lockstep.deepens_exhausted _
  | succ depth ih =>
    obtain ⟨depth', rfl⟩ : ∃ n, depth' = n + 1 := Nat.exists_eq_add_one.mpr (by omega)
    have hparts := @ih depth' (by omega)
    exact Comparer.InStep.step ⟨fun r => Lockstep.deepens_refl (resolve r), hparts⟩ assumed actual expected

end Ascribe
