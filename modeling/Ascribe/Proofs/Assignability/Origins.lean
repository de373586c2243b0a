import Ascribe.Assignability.Cast
import Ascribe.Proofs.Search.Alike
import Ascribe.Proofs.Ty.Congruence

/-!
# Back-references are not observed

Two types that are equal without their back-references are compared alike with any other: the verdict is the same, and
so is the message. Comparisons branch on whether types are the same in many places (elements, alias chains that come to
an end, super-interfaces that have been seen, pairs that are assumed), and each of them is followed here through a
comparison of types and of the same types erased.

A resolver takes part in the comparison, and it may keep a state. It has to let named types that are equal without their
back-references stand for types that are (`Resolver.Respects`), whichever of the states it is in that it does not tell
apart. What a comparison leaves behind in that state is then alike, too.

## Key results

- `Resolver.Respects.compareWithin_erase`: comparisons to a given depth
- `Comparer.Respects.castSafety_erase`: casts
- `compareUnresolved_congr`, `castSafetyUnresolved_congr`: types without declarations
- `origins_unobserved`: no operation on types depends on back-references
-/

namespace Ascribe

open Search (Alike)

/-- What a verdict says. -/
def Verdict.wording (verdict : Verdict) : Except String Unit :=
  verdict.mapError Mismatch.message

/-! ## What a mismatch says -/

namespace Mismatch

variable (actual expected : Ty) (detail : Mismatch)

theorem message_mayBeNull :
    (mayBeNull actual expected).message = headline actual expected ++ ": value may be null" := rfl

theorem message_distinctClasses :
    (distinctClasses actual expected).message = headline actual expected ++ ": distinct classes" := rfl

theorem message_argument (arg param : Ty) :
    (argument actual expected arg param).message =
      headline actual expected ++ ": argument " ++ arg.text ++ " does not match " ++ param.text := rfl

theorem message_tupleLength (wanted found : Nat) :
    (tupleLength actual expected wanted found).message =
      headline actual expected ++ s!": expected {wanted} elements, found {found}" := rfl

theorem message_field (name : String) : (field name detail).message = s!"field '{name}': " ++ detail.message := rfl

theorem message_missingMethod (name : String) (signature : Signature Ty) :
    (missingMethod name signature).message = s!"missing method '{name}' with signature " ++ signature.text := rfl

theorem message_resolved :
    (resolved actual expected detail).message = headline actual expected ++ " (" ++ detail.message ++ ")" := rfl

/-- `headline` does not show back-references, since no text of a type does. -/
theorem headline_erase : headline actual.erase expected.erase = headline actual expected := by
  simp only [headline, Ty.text_erase]

end Mismatch

variable {σ : Type} {S : Setoid σ}

/-! ## Following named types -/

namespace Resolver

variable (resolve : Resolver σ) (visits : Nat)

/-- The methods that come from what a super-interface stands for, and after them those of the super-interfaces that are
pending then. -/
def visit (seen rest : List Ty) (found : Ty) : Search σ (List (Method Ty)) := do
  match found.shape with
  | .interface body => return body.methods ++ (← resolve.inherited visits seen (body.supers.reverse ++ rest))
  | _ => resolve.inherited visits seen rest

variable {seen pending : List Ty}

theorem inherited_of_nil (h : pending.dropWhile seen.contains = []) :
    resolve.inherited (visits + 1) seen pending = pure [] := by
  simp only [inherited, h]

theorem inherited_of_cons {t : Ty} {rest : List Ty} (h : pending.dropWhile seen.contains = t :: rest) :
    resolve.inherited (visits + 1) seen pending = resolve.target t >>= resolve.visit visits (t :: seen) rest := by
  simp only [inherited, h]
  rfl

end Resolver

/-- Named types that are equal without their back-references stand for types that are, whenever they are asked for in
states that cannot be told apart. -/
def Resolver.Respects (S : Setoid σ) (resolve : Resolver σ) : Prop :=
  ∀ r r' : Reference Ty, (Ty.of (.ref r)).erase = (Ty.of (.ref r')).erase →
    Alike S Ty.erase (resolve r) (resolve r')

namespace Resolver.Respects

variable {resolve : Resolver σ} (h : resolve.Respects S)

include h

theorem follow_erase (steps : Nat) (decl : Option NodeId) (t : Ty) :
    Alike S (Prod.map id Ty.erase) (resolve.follow steps decl t) (resolve.follow steps decl t.erase) := by
  induction steps generalizing decl t with
  | zero => exact .pure (congrArg (decl, ·) t.erase_erase.symm)
  | succ steps ih =>
    have hnext (decl : NodeId) (t next : Ty) : Alike S (Prod.map id Ty.erase)
        (if next == t then return (some decl, t) else resolve.follow steps (some decl) next)
        (if next.erase == t.erase then return (some decl, t.erase)
          else resolve.follow steps (some decl) next.erase) := by
      simp only [Ty.beq_eq_same, Ty.same_erase_erase]
      split
      · exact .pure (congrArg (some decl, ·) t.erase_erase.symm)
      · exact ih (some decl) next
    simp only [Resolver.follow, Ty.reference?_erase]
    cases hr : t.reference? with
    | none => exact .pure (congrArg (decl, ·) t.erase_erase.symm)
    | some r =>
      have hreference : (Ty.of (.ref r)).erase = (Ty.of (.ref { r with args := r.args.map Ty.erase })).erase := by
        rw [← Ty.erase_erase, Ty.erase_eq (.of (.ref r))]
        rfl
      apply Alike.bindReduced (h _ _ hreference)
      · exact hnext r.decl t
      · intro next
        have herased := hnext r.decl t.erase next
        rwa [Ty.erase_erase] at herased

theorem declared_erase (t : Ty) : Alike S (Prod.map id Ty.erase) (resolve.declared t) (resolve.declared t.erase) :=
  h.follow_erase maxAliasChain none t

theorem target_erase (t : Ty) : Alike S Ty.erase (resolve.target t) (resolve.target t.erase) :=
  (h.declared_erase t).map fun _ _ heq => congrArg Prod.snd heq

omit h in
/-- `dropWhile` passes over the same pending types after `Ty.erase`. -/
theorem dropWhile_map_erase (seen pending : List Ty) :
    (pending.map Ty.erase).dropWhile (seen.map Ty.erase).contains =
      (pending.dropWhile seen.contains).map Ty.erase := by
  rw [List.dropWhile_map]
  congr 2
  funext t
  exact Ty.contains_map_erase seen t

theorem inherited_erase (visits : Nat) (seen pending : List Ty) :
    Alike S (List.map Method.erase) (resolve.inherited visits seen pending)
      (resolve.inherited visits (seen.map Ty.erase) (pending.map Ty.erase)) := by
  induction visits generalizing seen pending with
  | zero => exact .pure rfl
  | succ visits ih =>
    have hvisit (seen rest : List Ty) (found : Ty) : Alike S (List.map Method.erase)
        (resolve.visit visits seen rest found)
        (resolve.visit visits (seen.map Ty.erase) (rest.map Ty.erase) found.erase) := by
      unfold visit
      rw [Ty.erase_shape]
      cases found.shape with
      | interface body =>
        rw [Shape.erasedWith_interface]
        have hbelow := ih seen (body.supers.reverse ++ rest)
        rw [List.map_append, List.map_reverse] at hbelow
        refine Alike.bind hbelow fun methods methods' hmethods => .pure ?_
        simp [hmethods, Function.comp_def]
      | _ => exact ih seen rest
    have hdrop := dropWhile_map_erase seen pending
    cases hpending : pending.dropWhile seen.contains with
    | nil =>
      rw [hpending] at hdrop
      rw [inherited_of_nil resolve visits hpending, inherited_of_nil resolve visits hdrop]
      exact .pure rfl
    | cons t rest =>
      rw [hpending] at hdrop
      rw [inherited_of_cons resolve visits hpending, inherited_of_cons resolve visits hdrop]
      apply Alike.bindReduced (h.target_erase t)
      · exact hvisit (t :: seen) rest
      · intro found
        have herased := hvisit (t.erase :: seen.map Ty.erase) (rest.map Ty.erase) found
        rwa [List.map_cons, Ty.erase_erase, Ty.map_erase_map_erase, Ty.map_erase_map_erase] at herased

theorem interfaceMethods_erase (body : InterfaceBody Ty) :
    Alike S (List.map Method.erase) (resolve.interfaceMethods body)
      (resolve.interfaceMethods ⟨body.methods.map Method.erase, body.supers.map Ty.erase⟩) := by
  have hinherited := h.inherited_erase (maxAliasChain + 1) [] body.supers.reverse
  rw [List.map_reverse] at hinherited
  refine Alike.bind hinherited fun methods methods' hmethods => .pure ?_
  simp [hmethods, Function.comp_def]

end Resolver.Respects

/-! ## Comparing -/

namespace Comparer

/-- A comparer that treats types alike that are equal without their back-references. -/
structure Respects (S : Setoid σ) (c : Comparer σ) : Prop where
  resolve : c.resolve.Respects S
  compare : ∀ assumed (a e : Ty),
    Alike S Verdict.wording (c.compare assumed a e) (c.compare assumed a.erase e.erase)

theorem accept_alike : Alike S Verdict.wording accept accept :=
  .pure rfl

theorem reject_alike {why why' : Mismatch} (h : why.message = why'.message) :
    Alike S Verdict.wording (reject why) (reject why') :=
  .pure (congrArg Except.error h)

theorem unlike_alike (a e : Ty) : Alike S Verdict.wording (reject (.unlike a e)) (reject (.unlike a.erase e.erase)) :=
  reject_alike (Mismatch.headline_erase a e).symm

/-- Verdicts of equal `wording` are both positive or both negative. -/
theorem cases_of_wording {v v' : Verdict} (h : v.wording = v'.wording) :
    (v = .ok () ∧ v' = .ok ()) ∨ ∃ why why', v = .error why ∧ v' = .error why' ∧ why.message = why'.message := by
  cases v with
  | ok _ =>
    cases v' with
    | ok _ => exact .inl ⟨rfl, rfl⟩
    | error why => cases h
  | error why =>
    cases v' with
    | ok _ => cases h
    | error why' => exact .inr ⟨why, why', rfl, rfl, Except.error.inj h⟩

theorem wording_mapError {v v' : Verdict} (h : v.wording = v'.wording) {wrap wrap' : Mismatch → Mismatch}
    (hwrap : ∀ why why', why.message = why'.message → (wrap why).message = (wrap' why').message) :
    Verdict.wording (v.mapError wrap) = Verdict.wording (v'.mapError wrap') := by
  obtain ⟨rfl, rfl⟩ | ⟨why, why', rfl, rfl, hwhy⟩ := cases_of_wording h
  · rfl
  · exact congrArg Except.error (hwrap why why' hwhy)

theorem every_alike {α γ : Type} {check : α → Search σ Verdict} {check' : γ → Search σ Verdict} {image : α → γ}
    {xs : List α} (h : ∀ x ∈ xs, Alike S Verdict.wording (check x) (check' (image x))) :
    Alike S Verdict.wording (every check xs) (every check' (xs.map image)) := by
  induction xs with
  | nil => exact accept_alike
  | cons x rest ih =>
    rw [List.forall_mem_cons] at h
    rw [List.map_cons, every, every]
    refine Alike.bind h.1 fun v v' hv => ?_
    obtain ⟨rfl, rfl⟩ | ⟨why, why', rfl, rfl, hwhy⟩ := cases_of_wording hv
    · exact ih h.2
    · exact reject_alike hwhy

/-- `accept` or `reject` by an answer keeps `Alike`. -/
theorem ite_alike {x y : Search σ Bool} (h : Alike S id x y) {why why' : Mismatch} (hwhy : why.message = why'.message) :
    Alike S Verdict.wording (do if ← x then accept else reject why) (do if ← y then accept else reject why') := by
  refine Alike.bind h fun answer answer' hanswer => ?_
  obtain rfl : answer = answer' := hanswer
  cases answer with
  | true => exact accept_alike
  | false => exact reject_alike hwhy

/-! ## One step -/

section Parts

variable (c : Comparer σ) (assumed : Assumptions)

/-- Whether an available method answers to one that is required. -/
def provides (available : List (Method Ty)) (method : Method Ty) : Search σ Verdict := do
  let found ← available.anyM fun candidate =>
    if candidate.names.overlaps method.names then
      c.signature assumed candidate.signature method.signature
    else return false
  if found then accept else reject (.missingMethod method.names.primary method.signature)

theorem conforms_eq (available : List (Method Ty)) (body : InterfaceBody Ty) :
    c.conforms assumed available body =
      c.resolve.interfaceMethods body >>= every (c.provides assumed available) :=
  rfl

/-- Whether a struct has a field that fits an expected one. -/
def hasField (body : StructBody Ty) (field : Field Ty) : Search σ Verdict := do
  match body.field? field.name with
  | none => reject (.missingField field.name)
  | some found => return (← c.compare assumed found.type field.type).mapError (.field field.name)

theorem fields_eq (a e : StructBody Ty) : c.fields assumed a e = every (c.hasField assumed a) e.fields :=
  rfl

/-- Whether one of the available cases fits an expected one. -/
def hasCase (actual expected : Ty) (available : List (VariantCase Ty)) (case : VariantCase Ty) : Search σ Verdict := do
  match available.find? (·.name == case.name) with
  | none => reject (.missingConstructor case.name)
  | some found =>
    if found.params.length ≠ case.params.length then reject (.unlike actual expected)
    else every (fun (a, e) => c.compare assumed a.type e.type) (found.params.zip case.params)

theorem cases_eq (actual expected : Ty) (available required : List (VariantCase Ty)) :
    c.cases assumed actual expected available required =
      if available.length ≠ required.length then reject (.unlike actual expected)
      else every (c.hasCase assumed actual expected available) required :=
  rfl

/-- Compare what two types were found to stand for. -/
def meanings (actual expected : Ty) (x y : Option NodeId × Ty) : Search σ Verdict :=
  match x.2.shape, y.2.shape with
  | .cls _, .cls _ =>
    if x.1.isSome && y.1.isSome then
      if x.1 ≠ y.1 then reject (.distinctClasses actual expected)
      else if x.2 == y.2 then accept
      else reject (.unlike actual expected)
    else resolvedTypes.unnamed c assumed actual expected x.2 y.2
  | .ref _, _ | _, .ref _ => if x.2 == y.2 then accept else reject (.unlike actual expected)
  | _, _ => resolvedTypes.unnamed c assumed actual expected x.2 y.2

theorem resolvedTypes_eq (actual expected : Ty) :
    c.resolvedTypes assumed actual expected =
      (do c.meanings assumed actual expected (← c.resolve.declared actual) (← c.resolve.declared expected)) :=
  rfl

/-- Classify a cast by what its source and its target stand for. -/
def castMeanings (source target : Ty) : Search σ CastSafety := do
  if converts source target then return .unchecked
  if ← c.unwraps source target then return .unchecked
  if ← c.assignable target source then return .unchecked
  return .unrelated

theorem castSafety_eq (source target : Ty) :
    c.castSafety source target = (do
      if ← c.assignable source target then return .safe
      else c.castMeanings (← c.resolve.target source) (← c.resolve.target target)) :=
  rfl

end Parts

namespace Respects

variable {c : Comparer σ} (h : c.Respects S) (assumed : Assumptions)

include h

theorem holds_erase (a e : Ty) : Alike S id (c.holds assumed a e) (c.holds assumed a.erase e.erase) := by
  refine (h.compare assumed a e).map fun v v' hv => ?_
  obtain ⟨rfl, rfl⟩ | ⟨why, why', rfl, rfl, -⟩ := cases_of_wording hv <;> rfl

theorem element_erase (a e : Ty) : Alike S id (c.element assumed a e) (c.element assumed a.erase e.erase) := by
  unfold Comparer.element
  apply Alike.ite
  · simp only [Ty.beq_eq_same, Ty.same_erase_erase, Ty.isNever_erase, Ty.isError_erase]
  · exact .pure rfl
  apply Alike.ite
  · simp only [Ty.primitive?_erase]
  · exact .pure rfl
  · exact h.holds_erase assumed a e

theorem arguments_erase (a e : Ty) (args params : List Ty) :
    Alike S Verdict.wording (c.arguments assumed a e args params)
      (c.arguments assumed a.erase e.erase (args.map Ty.erase) (params.map Ty.erase)) := by
  unfold Comparer.arguments
  apply Alike.ite
  · rw [List.length_map, List.length_map]
  · exact unlike_alike a e
  rw [List.zip_map]
  have hfits (pair : Ty × Ty) : Alike S id (not <$> c.element assumed pair.1 pair.2)
      (not <$> c.element assumed pair.1.erase pair.2.erase) :=
    (h.element_erase assumed pair.1 pair.2).map fun _ _ => congrArg not
  -- the two arguments that do not fit are only shown by their texts
  have htexts (pair : Ty × Ty) : Prod.map Ty.text Ty.text (pair.map Ty.erase Ty.erase) = pair.map Ty.text Ty.text := by
    simp only [Prod.map, Ty.text_erase]
  apply Alike.bind
  · exact Alike.findM? htexts fun pair _ => hfits pair
  intro found found' hfound
  cases found with
  | none =>
    obtain rfl : found' = none := Option.map_eq_none_iff.mp hfound.symm
    exact accept_alike
  | some pair =>
    obtain ⟨pair', rfl, hpair⟩ := Option.map_eq_some_iff.mp hfound.symm
    obtain ⟨harg, hparam⟩ := Prod.mk.inj hpair
    apply reject_alike
    rw [Mismatch.message_argument, Mismatch.message_argument, Mismatch.headline_erase, harg, hparam]

theorem signature_erase (a e : Signature Ty) :
    Alike S id (c.signature assumed a e) (c.signature assumed a.erase e.erase) := by
  unfold Comparer.signature
  apply Alike.ite
  · have hlength (s : Signature Ty) : s.erase.params.length = s.params.length := List.length_map _
    rw [hlength, hlength]
    rfl
  · exact .pure rfl
  have hparams (pair : Param Ty × Param Ty) : Alike S id (c.holds assumed pair.2.type pair.1.type)
      (c.holds assumed pair.2.type.erase pair.1.type.erase) :=
    h.holds_erase assumed pair.2.type pair.1.type
  simp only [Signature.erase, Signature.mapUnder, List.zip_map]
  apply Alike.bind
  · exact Alike.allM fun pair _ => hparams pair
  intro found found' hfound
  obtain rfl : found = found' := hfound
  exact .ite Iff.rfl (h.holds_erase assumed a.result e.result) (.pure rfl)

theorem provides_erase (available : List (Method Ty)) (method : Method Ty) :
    Alike S Verdict.wording (c.provides assumed available method)
      (c.provides assumed (available.map Method.erase) method.erase) := by
  unfold provides
  apply ite_alike
  · refine Alike.anyM fun candidate _ => ?_
    exact .ite Iff.rfl (h.signature_erase assumed candidate.signature method.signature) (.pure rfl)
  · rw [Mismatch.message_missingMethod, Mismatch.message_missingMethod]
    show _ = s!"missing method '{method.names.primary}' with signature " ++ method.signature.erase.text
    rw [Signature.text_erase]

theorem conforms_erase (available : List (Method Ty)) (body : InterfaceBody Ty) :
    Alike S Verdict.wording (c.conforms assumed available body)
      (c.conforms assumed (available.map Method.erase) ⟨body.methods.map Method.erase, body.supers.map Ty.erase⟩) := by
  rw [conforms_eq, conforms_eq]
  apply Alike.bindReduced (h.resolve.interfaceMethods_erase body)
  · intro required
    exact every_alike fun method _ => h.provides_erase assumed available method
  · intro required
    refine every_alike fun method _ => ?_
    have herased := h.provides_erase assumed (available.map Method.erase) method
    rwa [Method.map_erase_map_erase] at herased

theorem hasField_erase (body : StructBody Ty) (field : Field Ty) :
    Alike S Verdict.wording (c.hasField assumed body field)
      (c.hasField assumed { body with fields := body.fields.map Field.erase } field.erase) := by
  unfold hasField
  rw [StructBody.field?_erase]
  show Alike S Verdict.wording _ (match (body.field? field.name).map Field.erase with | none => _ | some found => _)
  cases body.field? field.name with
  | none => exact reject_alike rfl
  | some found =>
    refine Alike.bind (h.compare assumed found.type field.type) fun v v' hv => .pure ?_
    refine wording_mapError hv fun why why' hwhy => ?_
    rw [Mismatch.message_field, Mismatch.message_field, hwhy]
    rfl

theorem fields_erase (a e : StructBody Ty) :
    Alike S Verdict.wording (c.fields assumed a e)
      (c.fields assumed { a with fields := a.fields.map Field.erase }
        { e with fields := e.fields.map Field.erase }) := by
  rw [fields_eq, fields_eq]
  exact every_alike fun field _ => h.hasField_erase assumed a field

theorem hasCase_erase (a e : Ty) (available : List (VariantCase Ty)) (case : VariantCase Ty) :
    Alike S Verdict.wording (c.hasCase assumed a e available case)
      (c.hasCase assumed a.erase e.erase (available.map VariantCase.erase) case.erase) := by
  unfold hasCase
  rw [VariantCase.find?_erase]
  show Alike S Verdict.wording _
    (match (available.find? (·.name == case.name)).map VariantCase.erase with | none => _ | some found => _)
  cases available.find? (·.name == case.name) with
  | none => exact reject_alike rfl
  | some found =>
    apply Alike.ite
    · simp only [VariantCase.erase, List.length_map]
    · exact unlike_alike a e
    · simp only [VariantCase.erase, List.zip_map]
      exact every_alike fun pair _ => h.compare assumed pair.1.type pair.2.type

theorem cases_erase (a e : Ty) (available required : List (VariantCase Ty)) :
    Alike S Verdict.wording (c.cases assumed a e available required)
      (c.cases assumed a.erase e.erase (available.map VariantCase.erase) (required.map VariantCase.erase)) := by
  rw [cases_eq, cases_eq]
  apply Alike.ite
  · rw [List.length_map, List.length_map]
  · exact unlike_alike a e
  · exact every_alike fun case _ => h.hasCase_erase assumed a e available case

omit h in
theorem oneOf_erase (a e : Ty) {check check' : Ty → Search σ Bool} {members : List Ty}
    (hcheck : ∀ m, Alike S id (check m) (check' m.erase)) :
    Alike S Verdict.wording (oneOf a e check members) (oneOf a.erase e.erase check' (members.map Ty.erase)) :=
  ite_alike (Alike.anyM fun m _ => hcheck m) (Mismatch.headline_erase a e).symm

theorem structural_erase (a e : Ty) :
    Alike S Verdict.wording (c.structural assumed a e) (c.structural assumed a.erase e.erase) := by
  have hunlike : Alike S Verdict.wording _ _ := unlike_alike a e
  have hheadline := (Mismatch.headline_erase a e).symm
  -- what most rules have in common: types compared by their texts, and what is expected of a union or a join
  have htexts : Alike S Verdict.wording (if a.text == e.text then accept else reject (.unlike a e))
      (if a.erase.text == e.erase.text then accept else reject (.unlike a.erase e.erase)) :=
    .ite (by rw [Ty.text_erase, Ty.text_erase]) accept_alike hunlike
  have hone (members : List Ty) : Alike S Verdict.wording (oneOf a e (c.holds assumed a) members)
      (oneOf a.erase e.erase (c.holds assumed a.erase) (members.map Ty.erase)) :=
    oneOf_erase a e fun m => h.holds_erase assumed a m
  have hall (members : List Ty) : Alike S Verdict.wording (every (c.compare assumed a) members)
      (every (c.compare assumed a.erase) (members.map Ty.erase)) :=
    every_alike fun m _ => h.compare assumed a m
  unfold Comparer.structural
  rw [Ty.erase_shape, Ty.erase_shape]
  cases a.shape with
  | generic g =>
    obtain ⟨name, constraint⟩ := g
    cases constraint with
    | none => exact hunlike
    | some bound => exact h.compare assumed bound e
  | union members => exact every_alike fun m _ => h.compare assumed m e
  | join members =>
    cases e.shape with
    | union members => exact hone members
    | join members => exact hall members
    | _ => exact oneOf_erase a e fun m => h.holds_erase assumed m e
  | prim p =>
    cases e.shape with
    | prim q => exact .ite Iff.rfl accept_alike hunlike
    | union members => exact hone members
    | join members => exact hall members
    | _ => exact htexts
  | array x =>
    cases e.shape with
    | array y => exact ite_alike (h.element_erase assumed x y) hheadline
    | union members => exact hone members
    | join members => exact hall members
    | _ => exact htexts
  | tuple xs =>
    cases e.shape with
    | tuple ys =>
      show Alike S Verdict.wording (if xs.length ≠ ys.length then _ else _)
        (if (xs.map Ty.erase).length ≠ (ys.map Ty.erase).length then _ else _)
      apply Alike.ite
      · rw [List.length_map, List.length_map]
      · apply reject_alike
        rw [Mismatch.message_tupleLength, Mismatch.message_tupleLength, Mismatch.headline_erase, List.length_map,
          List.length_map]
      · rw [List.zip_map]
        exact every_alike fun pair _ => h.compare assumed pair.1 pair.2
    | union members => exact hone members
    | join members => exact hall members
    | _ => exact htexts
  | struct x =>
    cases e.shape with
    | struct y =>
      rw [Shape.erasedWith_struct, Shape.erasedWith_struct]
      exact h.fields_erase assumed x y
    | union members => exact hone members
    | join members => exact hall members
    | _ => exact htexts
  | cls x =>
    cases e.shape with
    | interface y =>
      have hfilter : (x.methods.map Method.erase).filter (fun m => !m.isStatic) =
          (x.methods.filter fun m => !m.isStatic).map Method.erase := List.filter_map
      rw [Shape.erasedWith_cls, Shape.erasedWith_interface]
      simp only [hfilter]
      exact h.conforms_erase assumed (x.methods.filter fun m => !m.isStatic) y
    | union members => exact hone members
    | join members => exact hall members
    | _ => exact htexts
  | interface x =>
    cases e.shape with
    | interface y =>
      rw [Shape.erasedWith_interface, Shape.erasedWith_interface]
      apply Alike.bindReduced (h.resolve.interfaceMethods_erase x)
      · intro available
        exact h.conforms_erase assumed available y
      · intro available
        have herased := h.conforms_erase assumed available ⟨y.methods.map Method.erase, y.supers.map Ty.erase⟩
        rwa [Method.map_erase_map_erase, Ty.map_erase_map_erase] at herased
    | union members => exact hone members
    | join members => exact hall members
    | _ => exact htexts
  | constructed x =>
    cases e.shape with
    | variant ys => exact h.compare assumed x.variant e
    | constructed y =>
      rw [Shape.erasedWith_constructed, Shape.erasedWith_constructed]
      exact .ite Iff.rfl hunlike (h.arguments_erase assumed a e x.args y.args)
    | union members => exact hone members
    | join members => exact hall members
    | _ => exact htexts
  | variant xs =>
    cases e.shape with
    | variant ys =>
      rw [Shape.erasedWith_variant, Shape.erasedWith_variant]
      exact h.cases_erase assumed a e xs ys
    | union members => exact hone members
    | join members => exact hall members
    | _ => exact htexts
  | fn x =>
    cases e.shape with
    | fn y => exact ite_alike (h.signature_erase assumed x y) hheadline
    | union members => exact hone members
    | join members => exact hall members
    | _ => exact htexts
  | coroutine x =>
    cases e.shape with
    | coroutine y => exact ite_alike (h.signature_erase assumed x y) hheadline
    | union members => exact hone members
    | join members => exact hall members
    | _ => exact htexts
  | nullable | enum | stringEnum | ref | prototype | error =>
    cases e.shape with
    | union members => exact hone members
    | join members => exact hall members
    | _ => exact htexts

theorem meanings_erase (a e : Ty) (x y : Option NodeId × Ty) :
    Alike S Verdict.wording (c.meanings assumed a e x y)
      (c.meanings assumed a.erase e.erase (x.map id Ty.erase) (y.map id Ty.erase)) := by
  have hunlike : Alike S Verdict.wording _ _ := unlike_alike a e
  have hsame : (x.2 == y.2) = true ↔ (x.2.erase == y.2.erase) = true := by
    rw [Ty.beq_eq_same, Ty.beq_eq_same, Ty.same_erase_erase]
  have hequal : Alike S Verdict.wording (if x.2 == y.2 then accept else reject (.unlike a e))
      (if x.2.erase == y.2.erase then accept else reject (.unlike a.erase e.erase)) :=
    .ite hsame accept_alike hunlike
  have hunnamed : Alike S Verdict.wording (resolvedTypes.unnamed c assumed a e x.2 y.2)
      (resolvedTypes.unnamed c assumed a.erase e.erase x.2.erase y.2.erase) := by
    apply Alike.ite hsame accept_alike
    refine Alike.bind (h.compare assumed x.2 y.2) fun v v' hv => .pure ?_
    refine wording_mapError hv fun why why' hwhy => ?_
    rw [Mismatch.message_resolved, Mismatch.message_resolved, Mismatch.headline_erase, hwhy]
  have hclasses : Alike S Verdict.wording (reject (.distinctClasses a e))
      (reject (.distinctClasses a.erase e.erase)) := by
    apply reject_alike
    rw [Mismatch.message_distinctClasses, Mismatch.message_distinctClasses, Mismatch.headline_erase]
  unfold meanings
  simp only [Prod.map, id, Ty.erase_shape]
  cases x.2.shape with
  | cls _ =>
    cases y.2.shape with
    | cls _ => exact .ite Iff.rfl (.ite Iff.rfl hclasses hequal) hunnamed
    | ref _ => exact hequal
    | _ => exact hunnamed
  | ref _ => exact hequal
  | _ =>
    cases y.2.shape with
    | ref _ => exact hequal
    | _ => exact hunnamed

theorem resolvedTypes_erase (a e : Ty) :
    Alike S Verdict.wording (c.resolvedTypes assumed a e) (c.resolvedTypes assumed a.erase e.erase) := by
  rw [resolvedTypes_eq, resolvedTypes_eq]
  apply Alike.bindReduced₂ (h.resolve.declared_erase a) (h.resolve.declared_erase e)
  · exact h.meanings_erase assumed a e
  · intro x y
    have herased := h.meanings_erase assumed a.erase e.erase x y
    rwa [Ty.erase_erase, Ty.erase_erase] at herased

theorem general_erase (a e : Ty) :
    Alike S Verdict.wording (c.general assumed a e) (c.general assumed a.erase e.erase) := by
  unfold Comparer.general Comparer.named
  apply Alike.ite
  · rw [Ty.reference?_erase, Ty.reference?_erase, Option.isNone_map, Option.isNone_map]
  · exact h.structural_erase assumed a e
  · rw [Ty.text_erase, Ty.text_erase]
    exact .ite Iff.rfl accept_alike (h.resolvedTypes_erase _ a e)

theorem step_erase (a e : Ty) : Alike S Verdict.wording (c.step assumed a e) (c.step assumed a.erase e.erase) := by
  have hgeneral := h.general_erase assumed a e
  unfold Comparer.step
  apply Alike.ite
  · rw [Ty.beq_eq_same, Ty.beq_eq_same, Ty.same_erase_erase]
  · exact accept_alike
  apply Alike.ite
  · rw [Ty.isNever_erase, Ty.isError_erase, Ty.isError_erase, Ty.isAny_erase]
  · exact accept_alike
  have hnull : Alike S Verdict.wording (reject (.mayBeNull a e)) (reject (.mayBeNull a.erase e.erase)) := by
    apply reject_alike
    rw [Mismatch.message_mayBeNull, Mismatch.message_mayBeNull, Mismatch.headline_erase]
  rw [Ty.erase_shape, Ty.erase_shape]
  cases a.shape with
  | prim p =>
    cases e.shape with
    | nullable y =>
      cases p with
      | null => exact accept_alike
      | _ => exact h.compare assumed a y
    | _ => cases p <;> exact hgeneral
  | nullable x =>
    cases e.shape with
    | nullable y => exact h.compare assumed x y
    | _ => exact hnull
  | ref x =>
    cases e.shape with
    | nullable y => exact h.compare assumed a y
    | ref y => exact .ite Iff.rfl (h.arguments_erase assumed a e x.args y.args) hgeneral
    | _ => exact hgeneral
  | constructed x =>
    cases e.shape with
    | nullable y => exact h.compare assumed a y
    | ref y =>
      rw [Shape.erasedWith_constructed]
      apply Alike.ite
      · simp only [List.length_map]
      · exact h.arguments_erase assumed a e x.args y.args
      · exact hgeneral
    | _ => exact hgeneral
  | _ =>
    cases e.shape with
    | nullable y => exact h.compare assumed a y
    | _ => exact hgeneral

omit h in
theorem converts_erase (source target : Ty) : converts source.erase target.erase = converts source target := by
  simp only [converts, Ty.isAny_erase, Ty.isNumeric, Ty.isInteger, Ty.primitive?_erase, Ty.erase_shape]
  cases source.shape <;> cases target.shape <;> rfl

theorem unwraps_erase (source target : Ty) :
    Alike S id (c.unwraps source target) (c.unwraps source.erase target.erase) := by
  unfold Comparer.unwraps
  rw [Ty.erase_shape]
  cases source.shape with
  | nullable base => exact h.holds_erase [] base target
  | _ => exact .pure rfl

theorem castMeanings_erase (source target : Ty) :
    Alike S id (c.castMeanings source target) (c.castMeanings source.erase target.erase) := by
  unfold castMeanings
  apply Alike.ite
  · rw [converts_erase]
  · exact .pure rfl
  refine Alike.bind (h.unwraps_erase source target) fun found found' hfound => ?_
  obtain rfl : found = found' := hfound
  apply Alike.ite Iff.rfl (.pure rfl)
  refine Alike.bind (h.holds_erase [] target source) fun found found' hfound => ?_
  obtain rfl : found = found' := hfound
  exact .ite Iff.rfl (.pure rfl) (.pure rfl)

theorem castSafety_erase (source target : Ty) :
    Alike S id (c.castSafety source target) (c.castSafety source.erase target.erase) := by
  rw [castSafety_eq, castSafety_eq]
  refine Alike.bind (h.holds_erase [] source target) fun found found' hfound => ?_
  obtain rfl : found = found' := hfound
  apply Alike.ite Iff.rfl (.pure rfl)
  apply Alike.bindReduced₂ (h.resolve.target_erase source) (h.resolve.target_erase target)
  · exact h.castMeanings_erase
  · exact h.castMeanings_erase

end Respects

end Comparer

/-- `compareWithin` compares types `Alike` that are equal under `erase`, however deep it goes. -/
theorem Resolver.Respects.compareWithin_erase {resolve : Resolver σ} (h : resolve.Respects S) (depth : Nat)
    (assumed : Assumptions) (a e : Ty) :
    Alike S Verdict.wording (compareWithin resolve depth assumed a e)
      (compareWithin resolve depth assumed a.erase e.erase) := by
  induction depth generalizing assumed a e with
  | zero => exact .throw .tooDeep
  | succ depth ih => exact Comparer.Respects.step_erase ⟨h, ih⟩ assumed a e

theorem Resolver.Respects.ofResolver {resolve : Resolver σ} (h : resolve.Respects S) (depth : Nat) :
    (Comparer.ofResolver resolve depth).Respects S :=
  ⟨h, h.compareWithin_erase depth⟩

/-! ## Types without declarations -/

theorem Resolver.unknown_respects (S : Setoid Unit) : unknown.Respects S :=
  fun _ _ hreference => .pure hreference

/-- `askUnresolved` answers alike for erased types. -/
theorem askUnresolved_erase {α β : Type} {S : Setoid Unit} {view : α → β} {ask ask' : Comparer Unit → Search Unit α}
    (a e : Ty) (h : ∀ depth, Alike S view (ask (.ofResolver .unknown depth)) (ask' (.ofResolver .unknown depth))) :
    view <$> askUnresolved a e ask = view <$> askUnresolved a.erase e.erase ask' := by
  have hlimit := (h depthLimit).run'_eq (S.refl ())
  have hsize := (h (a.size + e.size)).run'_eq (S.refl ())
  unfold askUnresolved
  rw [Ty.size_erase, Ty.size_erase]
  cases hx : (ask (.ofResolver .unknown depthLimit)).run' () <;>
    cases hy : (ask' (.ofResolver .unknown depthLimit)).run' () <;> rw [hx, hy] at hlimit
  case error.error fault fault' =>
    -- the question is asked again on both sides or on neither
    obtain rfl : fault = fault' := Except.error.inj hlimit
    cases fault with
    | tooDeep => exact hsize
    | missingNode id => rfl
  case error.ok => cases hlimit
  case ok.error => cases hlimit
  case ok.ok => exact hlimit

theorem compareUnresolved_congr {a a' e e' : Ty} (ha : a.erase = a'.erase) (he : e.erase = e'.erase) :
    Verdict.wording <$> compareUnresolved a e = Verdict.wording <$> compareUnresolved a' e' := by
  have hunknown := Resolver.unknown_respects ⟨Eq, eq_equivalence⟩
  have herase (a e : Ty) : Verdict.wording <$> compareUnresolved a e =
      Verdict.wording <$> compareUnresolved a.erase e.erase :=
    askUnresolved_erase a e fun depth => hunknown.compareWithin_erase depth [] a e
  rw [herase a e, ha, he, ← herase a' e']

theorem castSafetyUnresolved_congr {a a' e e' : Ty} (ha : a.erase = a'.erase) (he : e.erase = e'.erase) :
    castSafetyUnresolved a e = castSafetyUnresolved a' e' := by
  have hunknown := Resolver.unknown_respects ⟨Eq, eq_equivalence⟩
  have herase (a e : Ty) : castSafetyUnresolved a e = castSafetyUnresolved a.erase e.erase := by
    have hask : id <$> castSafetyUnresolved a e = id <$> castSafetyUnresolved a.erase e.erase :=
      askUnresolved_erase a e fun depth => (hunknown.ofResolver depth).castSafety_erase a e
    rwa [id_map, id_map] at hask
  rw [herase a e, ha, he, ← herase a' e']

/-! ## Nothing depends on back-references -/

/-- Back-references are not observed: whatever is equal under `erase` has the same `text`, and substituting,
instantiating, simplifying and solving generic parameters gives results that are equal under it. Comparisons and casts
come out the same, down to the message: without declarations, and with any resolver that `Respects` an equivalence of
its states, so that named types which are equal without their back-references stand for types which are. -/
theorem origins_unobserved {a a' e e' : Ty} (ha : a.erase = a'.erase) (he : e.erase = e'.erase)
    {s s' : Signature Ty} (hs : s.erase = s'.erase) {b b' : Bindings} (hb : b.Alike b') (names : List String)
    {params params' args args' : List Ty} (hparams : params.map Ty.erase = params'.map Ty.erase)
    (hargs : args.map Ty.erase = args'.map Ty.erase) {resolve : Resolver σ} (hresolve : resolve.Respects S)
    (depth : Nat) (assumed : Assumptions) :
    a.text = a'.text ∧
      (a.substitute b).erase = (a'.substitute b').erase ∧
      (s.instantiate b).erase = (s'.instantiate b').erase ∧
      a.simplify.erase = a'.simplify.erase ∧
      Bindings.erase (solveGenerics names params args) = Bindings.erase (solveGenerics names params' args') ∧
      Verdict.wording <$> compareUnresolved a e = Verdict.wording <$> compareUnresolved a' e' ∧
      castSafetyUnresolved a e = castSafetyUnresolved a' e' ∧
      Alike S Verdict.wording (compareWithin resolve depth assumed a e) (compareWithin resolve depth assumed a' e') ∧
      Alike S id ((Comparer.ofResolver resolve depth).castSafety a e)
        ((Comparer.ofResolver resolve depth).castSafety a' e') := by
  refine ⟨?_, Ty.erase_substitute_congr ha hb, Signature.erase_instantiate_congr hs hb, Ty.erase_simplify_congr ha,
    erase_solveGenerics_congr names hparams hargs, compareUnresolved_congr ha he, castSafetyUnresolved_congr ha he,
    Alike.congr₂ (hresolve.compareWithin_erase depth assumed) ha he,
    Alike.congr₂ (hresolve.ofResolver depth).castSafety_erase ha he⟩
  rw [← Ty.text_erase, ha, Ty.text_erase]

/-- A resolver that derives what it is asked for anew each time, from another node: `struct {next: Node?}`. -/
def renewing : Resolver Nat := fun _ => do
  let node ← get
  set (node + 1)
  return ⟨.struct { fields := [⟨"next", (Ty.reference 0 "Node" []).nullable, some node⟩] }, some node⟩

/-- All states are alike. -/
def anyState : Setoid Nat :=
  ⟨fun _ _ => True, fun _ => trivial, fun _ => trivial, fun _ _ => trivial⟩

theorem renewing_respects : renewing.Respects anyState := by
  intro r r' _ node node' _
  refine ⟨?_, trivial⟩
  rw [Ty.erase_eq, Ty.erase_eq]
  rfl

/-- The named type `Node`, derived from a node or from none. -/
def nodeFrom (origin : Option NodeId) : Ty :=
  ⟨.ref ⟨0, "Node", []⟩, origin⟩

/-- `struct {value: T}`, with a field that is derived from a node or from none. -/
def boxFrom (origin : Option NodeId) : Ty :=
  ⟨.struct { fields := [⟨"value", .of (.generic { name := "T" }), origin⟩] }, origin⟩

/-- A box is no `Node`, wherever the two come from and however often `Node` has been resolved, and always for the same
reason. Boxes of nodes are equal without their back-references, too. -/
theorem box_unlike_node :
    renewing.Respects anyState ∧ (boxFrom (some 5)).erase = (boxFrom none).erase ∧
      (nodeFrom (some 6)).erase = (nodeFrom none).erase ∧
      Verdict.wording <$> (compareWithin renewing 4 [] (boxFrom (some 5)) (nodeFrom (some 6))).run' 3 =
        .ok (.error "type struct \x7bvalue: T\x7d is not assignable to Node (missing field 'next')") ∧
      ((boxFrom (some 5)).substitute ⟨[("T", nodeFrom (some 6))]⟩).erase =
        ((boxFrom none).substitute ⟨[("T", nodeFrom none)]⟩).erase := by
  have hbox : (boxFrom (some 5)).erase = (boxFrom none).erase := by
    rw [Ty.erase_eq, Ty.erase_eq]
    rfl
  have hnode : (nodeFrom (some 6)).erase = (nodeFrom none).erase := by
    rw [Ty.erase_eq, Ty.erase_eq]
    rfl
  have hsignature : Signature.erase { result := boxFrom (some 5) } = Signature.erase { result := boxFrom none } := by
    rw [Signature.erase, Signature.erase, Signature.mapUnder, Signature.mapUnder, hbox]
  have hbindings : Bindings.Alike ⟨[("T", nodeFrom (some 6))]⟩ ⟨[("T", nodeFrom none)]⟩ := by
    intro name
    by_cases hname : name == "T" <;> simp [Table.get?, List.lookup_cons, hname, hnode]
  have hparams : [boxFrom (some 5)].map Ty.erase = [boxFrom none].map Ty.erase := congrArg (fun t => [t]) hbox
  obtain ⟨-, hsubstitute, -, -, -, -, -, hcompare, -⟩ :=
    origins_unobserved hbox hnode hsignature hbindings ["T"] hparams hparams renewing_respects 4 []
  -- the verdict from one state is the one on plain types from another
  have hverdict := hcompare.run'_eq (show anyState.r 3 8 from trivial)
  exact ⟨renewing_respects, hbox, hnode, hverdict.trans rfl, hsubstitute⟩

end Ascribe
