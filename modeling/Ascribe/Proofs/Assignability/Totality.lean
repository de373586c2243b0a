import Ascribe.Proofs.Assignability.Rules
import Ascribe.Proofs.Search.Returns

/-!
# Steps of a comparison that come to a verdict

A step of a comparison asks about the parts of the two types, and about the methods of interfaces, inherited ones
included. It comes to a verdict if these questions are answered, and keeps an invariant that they keep
(`Comparer.step_ensures`). Which types a question may be about is left open: types smaller than the compared ones where
a comparison only goes from types to their parts, or types that point into a tree where it follows named types as well.

## Key results

- `Resolver.interfaceMethods_ensures`: the methods of an interface are found
- `Comparer.structural_ensures`, `Comparer.step_ensures`: a step comes to a verdict
- `Comparer.named_ensures`: a comparison of named types does
-/

namespace Ascribe

variable {σ : Type} {I : σ → Prop}

theorem Shape.mem_parts_constructed {c : Constructed Ty} {arg : Ty} (h : arg ∈ c.args) :
    arg ∈ (Shape.constructed c).parts :=
  List.mem_cons_of_mem _ (List.mem_append_left _ h)

/-! ## Following named types -/

/-- A resolver that answers for the types that `W` allows, and gives a type that `W` allows. The methods of interfaces
that `W` allows satisfy `M`. -/
structure Resolver.TotalOn (I : σ → Prop) (W : Ty → Prop) (M : Method Ty → Prop) (resolve : Resolver σ) : Prop where
  resolve : ∀ {t r}, t.shape = .ref r → W t → (resolve r).TotalUnder I W
  methods : ∀ {t body}, t.shape = .interface body → W t → ∀ m ∈ body.methods, M m
  supers : ∀ {t body}, t.shape = .interface body → W t → ∀ u ∈ body.supers, W u

/-- A resolver that leads from super-interfaces that `P` allows to types that `Q` allows. The methods of interfaces
among these satisfy `M`, and their own super-interfaces are allowed by `P` again. -/
structure Resolver.Walks (total : Prop) (I : σ → Prop) (P Q : Ty → Prop) (M : Method Ty → Prop) (resolve : Resolver σ) :
    Prop where
  target : ∀ {u}, P u → (resolve.target u).Ensures total I Q
  methods : ∀ {t body}, t.shape = .interface body → Q t → ∀ m ∈ body.methods, M m
  supers : ∀ {t body}, t.shape = .interface body → Q t → ∀ u ∈ body.supers, P u

namespace Resolver

open Search (ensures_true_iff)

variable {total : Prop} {resolve : Resolver σ} {W : Ty → Prop} {M : Method Ty → Prop}

theorem follow_ensures (h : ∀ {t r}, t.shape = .ref r → W t → (resolve r).Ensures total I W) (steps : Nat)
    (decl : Option NodeId) {t : Ty} (ht : W t) :
    (resolve.follow steps decl t).Ensures total I fun found => W found.2 := by
  induction steps generalizing decl t with
  | zero => exact .pure ht
  | succ steps ih =>
    rw [follow]
    cases hr : t.reference? with
    | none => exact .pure ht
    | some r =>
      refine .bind (h (Ty.reference?_eq_some.mp hr) ht) fun next hnext => ?_
      split
      · exact .pure ht
      · exact ih _ hnext

theorem target_ensures (h : ∀ {t r}, t.shape = .ref r → W t → (resolve r).Ensures total I W) {t : Ty} (ht : W t) :
    (resolve.target t).Ensures total I W :=
  .map (follow_ensures h _ _ ht)

theorem follow_total (h : resolve.TotalOn I W M) (steps : Nat) (decl : Option NodeId) {t : Ty} (ht : W t) :
    (resolve.follow steps decl t).TotalUnder I fun found => W found.2 :=
  ensures_true_iff.mp (follow_ensures (fun hr ht => ensures_true_iff.mpr (h.resolve hr ht)) steps decl ht)

theorem target_total (h : resolve.TotalOn I W M) {t : Ty} (ht : W t) : (resolve.target t).TotalUnder I W :=
  .map (follow_total h _ _ ht)

theorem TotalOn.walks (h : resolve.TotalOn I W M) : resolve.Walks True I W W M :=
  ⟨fun ht => ensures_true_iff.mpr (target_total h ht), h.methods, h.supers⟩

variable {P Q : Ty → Prop}

theorem inherited_ensures (h : resolve.Walks total I P Q M) (visits : Nat) (seen : List Ty) {pending : List Ty}
    (hpending : ∀ t ∈ pending, P t) :
    (resolve.inherited visits seen pending).Ensures total I fun found => ∀ m ∈ found, M m := by
  induction visits generalizing seen pending with
  | zero => exact .pure (by simp)
  | succ visits ih =>
    rw [inherited]
    cases hrest : pending.dropWhile seen.contains with
    | nil => exact .pure (by simp)
    | cons t rest =>
      have hsub : t :: rest ⊆ pending := hrest ▸ (List.dropWhile_sublist _).subset
      have hleft : ∀ u ∈ rest, P u := fun u hu => hpending u (hsub (List.mem_cons_of_mem _ hu))
      refine .bind (h.target (hpending t (hsub List.mem_cons_self))) fun found hfound => ?_
      cases hshape : found.shape with
      | interface body =>
        have hsupers : ∀ u ∈ body.supers.reverse ++ rest, P u := by
          intro u hu
          rcases List.mem_append.mp hu with hu | hu
          · exact h.supers hshape hfound u (List.mem_reverse.mp hu)
          · exact hleft u hu
        refine .bind (ih _ hsupers) fun methods hmethods => .pure fun m hm => ?_
        rcases List.mem_append.mp hm with hm | hm
        · exact h.methods hshape hfound m hm
        · exact hmethods m hm
      | _ => exact ih _ hleft

theorem interfaceMethods_ensures (h : resolve.Walks total I P Q M) {body : InterfaceBody Ty}
    (hmethods : ∀ m ∈ body.methods, M m) (hsupers : ∀ u ∈ body.supers, P u) :
    (resolve.interfaceMethods body).Ensures total I fun found => ∀ m ∈ found, M m := by
  have hpending : ∀ u ∈ body.supers.reverse, P u := fun u hu => hsupers u (List.mem_reverse.mp hu)
  refine .bind (inherited_ensures h _ _ hpending) fun methods hinherited => .pure fun m hm => ?_
  rcases List.mem_append.mp hm with hm | hm
  · exact hmethods m hm
  · exact hinherited m hm

theorem interfaceMethods_total (h : resolve.Walks True I P Q M) {body : InterfaceBody Ty}
    (hmethods : ∀ m ∈ body.methods, M m) (hsupers : ∀ u ∈ body.supers, P u) :
    (resolve.interfaceMethods body).TotalUnder I fun found => ∀ m ∈ found, M m :=
  ensures_true_iff.mp (interfaceMethods_ensures h hmethods hsupers)

end Resolver

namespace Comparer

variable {total : Prop}

/-! ## Verdicts -/

theorem accept_ensures : (accept : Search σ Verdict).Ensures total I fun _ => True :=
  .pure trivial

theorem reject_ensures (why : Mismatch) : (reject why : Search σ Verdict).Ensures total I fun _ => True :=
  .pure trivial

theorem every_ensures {α : Type} {check : α → Search σ Verdict} {xs : List α}
    (h : ∀ x ∈ xs, (check x).Ensures total I fun _ => True) : (every check xs).Ensures total I fun _ => True := by
  induction xs with
  | nil => exact accept_ensures
  | cons x rest ih =>
    rw [List.forall_mem_cons] at h
    rw [every]
    refine .bind h.1 fun verdict _ => ?_
    cases verdict with
    | ok _ => exact ih h.2
    | error why => exact reject_ensures why

theorem ite_ensures {x : Search σ Bool} (why : Mismatch) (h : x.Ensures total I fun _ => True) :
    Search.Ensures total I (do if ← x then accept else reject why) fun _ => True := by
  refine .bind h fun answer _ => ?_
  cases answer with
  | true => exact accept_ensures
  | false => exact reject_ensures why

/-! ## Comparing parts -/

section Parts

variable {c : Comparer σ} {assumed : Assumptions} {R : Ty → Ty → Prop}
  (hcompare : ∀ x y : Ty, R x y → (c.compare assumed x y).Ensures total I fun _ => True)

include hcompare

theorem holds_ensures {a e : Ty} (h : R a e) : (c.holds assumed a e).Ensures total I fun _ => True :=
  .map ((hcompare a e h).mono fun _ _ => trivial)

theorem element_ensures {a e : Ty} (h : R a e) : (c.element assumed a e).Ensures total I fun _ => True := by
  unfold element
  split
  · exact .pure trivial
  · split
    · exact .pure trivial
    · exact holds_ensures hcompare h

theorem arguments_ensures {args params : List Ty} (actual expected : Ty) (h : ∀ x ∈ args, ∀ y ∈ params, R x y) :
    (c.arguments assumed actual expected args params).Ensures total I fun _ => True := by
  unfold arguments
  split
  · exact reject_ensures _
  · have hpairs : ∀ p ∈ args.zip params, (not <$> c.element assumed p.1 p.2).Ensures total I fun _ => True := by
      intro p hp
      obtain ⟨hx, hy⟩ := List.of_mem_zip hp
      exact .map ((element_ensures hcompare (h _ hx _ hy)).mono fun _ _ => trivial)
    refine .bind (.findM? hpairs) fun bad _ => ?_
    cases bad with
    | none => exact accept_ensures
    | some p => exact reject_ensures _

theorem signature_ensures {a e : Signature Ty} (h : ∀ x ∈ a.parts, ∀ y ∈ e.parts, R x y ∧ R y x) :
    (c.signature assumed a e).Ensures total I fun _ => True := by
  have hparams : ∀ p ∈ a.params.zip e.params, R p.2.type p.1.type := by
    intro p hp
    obtain ⟨hx, hy⟩ := List.of_mem_zip hp
    exact (h _ (List.mem_append_left _ (List.mem_map.mpr ⟨_, hx, rfl⟩)) _
      (List.mem_append_left _ (List.mem_map.mpr ⟨_, hy, rfl⟩))).2
  have hresults : R a.result e.result :=
    (h _ (List.mem_append_right _ List.mem_cons_self) _ (List.mem_append_right _ List.mem_cons_self)).1
  unfold signature
  split
  · exact .pure trivial
  · refine .bind (.allM fun p hp => holds_ensures hcompare (hparams p hp)) fun answer _ => ?_
    cases answer with
    | true => exact holds_ensures hcompare hresults
    | false => exact .pure trivial

theorem fields_ensures {a e : StructBody Ty} (h : ∀ x ∈ a.fields, ∀ y ∈ e.fields, R x.type y.type) :
    (c.fields assumed a e).Ensures total I fun _ => True := by
  refine every_ensures fun field hfield => ?_
  split
  · exact reject_ensures _
  · next found hfound =>
    refine .bind (hcompare _ _ ?_) fun verdict _ => .pure trivial
    exact h found (List.mem_of_find?_eq_some hfound) field hfield

theorem cases_ensures {available required : List (VariantCase Ty)} (actual expected : Ty)
    (h : ∀ x ∈ available.flatMap (·.params), ∀ y ∈ required.flatMap (·.params), R x.type y.type) :
    (c.cases assumed actual expected available required).Ensures total I fun _ => True := by
  unfold cases
  split
  · exact reject_ensures _
  · refine every_ensures fun case hcase => ?_
    split
    · exact reject_ensures _
    · next found hfound =>
      split
      · exact reject_ensures _
      · refine every_ensures fun p hp => hcompare _ _ ?_
        obtain ⟨hx, hy⟩ := List.of_mem_zip hp
        have havailable := List.mem_flatMap.mpr ⟨found, List.mem_of_find?_eq_some hfound, hx⟩
        exact h _ havailable _ (List.mem_flatMap.mpr ⟨case, hcase, hy⟩)

theorem conforms_ensures {available : List (Method Ty)} {body : InterfaceBody Ty} {A E : Ty → Prop}
    (hR : ∀ {x y}, A x → E y → R x y ∧ R y x)
    (havailable : ∀ m ∈ available, ∀ x ∈ m.signature.parts, A x)
    (hrequired : (c.resolve.interfaceMethods body).Ensures total I fun found =>
      ∀ m ∈ found, ∀ y ∈ m.signature.parts, E y) :
    (c.conforms assumed available body).Ensures total I fun _ => True := by
  refine .bind hrequired fun required hmethods => ?_
  refine every_ensures fun method hmethod => ite_ensures _ (.anyM fun candidate hcandidate => ?_)
  split
  · refine signature_ensures hcompare fun x hx y hy => ?_
    exact hR (havailable candidate hcandidate x hx) (hmethods method hmethod y hy)
  · exact .pure trivial

end Parts

/-! ## One step -/

/-- What the comparison of two types may ask about: types that satisfy `A` in place of the first one, types that
satisfy `E` in place of the second one, and the methods of interfaces. -/
structure Answers (total : Prop) (I : σ → Prop) (c : Comparer σ) (assumed : Assumptions) (a e : Ty)
    (A E : Ty → Prop) : Prop where
  left : ∀ {x}, A x → (c.compare assumed x e).Ensures total I fun _ => True
  right : ∀ {y}, E y → (c.compare assumed a y).Ensures total I fun _ => True
  both : ∀ {x y}, A x → E y → (c.compare assumed x y).Ensures total I fun _ => True
  flipped : ∀ {x y}, A x → E y → (c.compare assumed y x).Ensures total I fun _ => True
  actualParts : ∀ x ∈ a.shape.parts, A x
  expectedParts : ∀ y ∈ e.shape.parts, E y
  actualMethods : ∀ {body}, a.shape = .interface body →
    (c.resolve.interfaceMethods body).Ensures total I fun found => ∀ m ∈ found, ∀ x ∈ m.signature.parts, A x
  expectedMethods : ∀ {body}, e.shape = .interface body →
    (c.resolve.interfaceMethods body).Ensures total I fun found => ∀ m ∈ found, ∀ y ∈ m.signature.parts, E y

variable {c : Comparer σ} {assumed : Assumptions} {a e : Ty} {A E : Ty → Prop} (h : c.Answers total I assumed a e A E)

include h

theorem structural_ensures : (c.structural assumed a e).Ensures total I fun _ => True := by
  have hcompare (x y : Ty) (hxy : A x ∧ E y ∨ A y ∧ E x) : (c.compare assumed x y).Ensures total I fun _ => True :=
    hxy.elim (fun h' => h.both h'.1 h'.2) fun h' => h.flipped h'.1 h'.2
  have actual {s : Shape Ty} (hs : a.shape = s) {x : Ty} (hx : x ∈ s.parts) : A x := h.actualParts x (hs ▸ hx)
  have expected {s : Shape Ty} (hs : e.shape = s) {y : Ty} (hy : y ∈ s.parts) : E y := h.expectedParts y (hs ▸ hy)
  have signatures {s s' : Signature Ty} (ha : ∀ x ∈ s.parts, A x) (he : ∀ y ∈ s'.parts, E y) :
      (c.signature assumed s s').Ensures total I fun _ => True :=
    signature_ensures hcompare fun x hx y hy => ⟨.inl ⟨ha x hx, he y hy⟩, .inr ⟨ha x hx, he y hy⟩⟩
  have methods {available : List (Method Ty)} {body : InterfaceBody Ty} (hbody : e.shape = .interface body)
      (havailable : ∀ m ∈ available, ∀ x ∈ m.signature.parts, A x) :
      (c.conforms assumed available body).Ensures total I fun _ => True :=
    conforms_ensures hcompare (fun hx hy => ⟨.inl ⟨hx, hy⟩, .inr ⟨hx, hy⟩⟩) havailable (h.expectedMethods hbody)
  -- every question is about a part of one of the types, and about the other type or a part of it
  unfold structural
  split
  case h_1 => split <;> exact .pure trivial
  case h_2 g ha =>
    cases hconstraint : g.constraint with
    | none => exact reject_ensures _
    | some x => exact h.left (actual ha (by simp [Shape.parts, hconstraint]))
  case h_3 members ha => exact every_ensures fun m hm => h.left (actual ha hm)
  case h_4 members he _ _ =>
    exact ite_ensures _ (.anyM fun m hm => .map ((h.right (expected he hm)).mono fun _ _ => trivial))
  case h_5 members he _ _ => exact every_ensures fun m hm => h.right (expected he hm)
  case h_6 members ha _ _ =>
    exact ite_ensures _ (.anyM fun m hm => .map ((h.left (actual ha hm)).mono fun _ _ => trivial))
  case h_7 x y ha he =>
    exact ite_ensures _ (element_ensures hcompare (.inl ⟨actual ha List.mem_cons_self, expected he List.mem_cons_self⟩))
  case h_8 as es ha he =>
    split
    · exact reject_ensures _
    · refine every_ensures fun p hp => ?_
      obtain ⟨hx, hy⟩ := List.of_mem_zip hp
      exact h.both (actual ha hx) (expected he hy)
  case h_9 a' e' ha he =>
    refine fields_ensures hcompare fun x hx y hy => .inl ⟨?_, ?_⟩
    · exact actual ha (List.mem_map.mpr ⟨x, hx, rfl⟩)
    · exact expected he (List.mem_map.mpr ⟨y, hy, rfl⟩)
  case h_10 a' e' ha he =>
    refine methods he fun m hm x hx => actual ha ?_
    simp only [Shape.parts, List.mem_append, List.mem_flatMap]
    exact .inl (.inl (.inr ⟨m, (List.mem_filter.mp hm).1, hx⟩))
  case h_11 a' e' ha he => exact .bind (h.actualMethods ha) fun available havailable => methods he havailable
  case h_12 a' _ ha _ => exact h.left (actual ha List.mem_cons_self)
  case h_13 a' e' ha he =>
    split
    · exact reject_ensures _
    · refine arguments_ensures hcompare a e fun x hx y hy => .inl ⟨?_, ?_⟩
      · exact actual ha (Shape.mem_parts_constructed hx)
      · exact expected he (Shape.mem_parts_constructed hy)
  case h_14 as es ha he =>
    have hparams {cs : List (VariantCase Ty)} {x : Field Ty} (hx : x ∈ cs.flatMap (·.params)) :
        x.type ∈ (Shape.variant cs).parts := by
      simp only [Shape.parts, List.mem_flatMap, List.mem_map] at hx ⊢
      obtain ⟨case, hcase, hx⟩ := hx
      exact ⟨case, hcase, x, hx, rfl⟩
    exact cases_ensures hcompare a e fun x hx y hy => .inl ⟨actual ha (hparams hx), expected he (hparams hy)⟩
  case h_15 a' e' ha he => exact ite_ensures _ (signatures (fun x hx => actual ha hx) fun y hy => expected he hy)
  case h_16 a' e' ha he => exact ite_ensures _ (signatures (fun x hx => actual ha hx) fun y hy => expected he hy)
  case h_17 => split <;> exact .pure trivial

/-- `step` comes to a verdict if its questions are answered and `named` does. -/
theorem step_ensures (hnamed : (∃ r, a.shape = .ref r) ∨ (∃ r, e.shape = .ref r) →
      (c.named assumed a e).Ensures total I fun _ => True) :
    (c.step assumed a e).Ensures total I fun _ => True := by
  have hcompare (x y : Ty) (hxy : A x ∧ E y) : (c.compare assumed x y).Ensures total I fun _ => True :=
    h.both hxy.1 hxy.2
  have hgeneral : (c.general assumed a e).Ensures total I fun _ => True := by
    unfold general
    split
    · exact structural_ensures h
    · next href =>
      refine hnamed ?_
      simpa only [Bool.and_eq_true, not_and_or, Option.isNone_iff_eq_none, Option.ne_none_iff_exists',
        Ty.reference?_eq_some] using href
  unfold step
  split
  · exact accept_ensures
  split
  · exact accept_ensures
  split
  case h_1 => exact accept_ensures
  case h_2 x y ha he =>
    exact h.both (h.actualParts x (by simp [ha, Shape.parts])) (h.expectedParts y (by simp [he, Shape.parts]))
  case h_3 y he _ _ => exact h.right (h.expectedParts y (by simp [he, Shape.parts]))
  case h_4 => exact reject_ensures _
  case h_5 r r' ha he =>
    split
    · refine arguments_ensures hcompare a e fun x hx y hy => ⟨?_, ?_⟩
      · exact h.actualParts x (ha ▸ hx)
      · exact h.expectedParts y (he ▸ hy)
    · exact hgeneral
  case h_6 x r ha he =>
    split
    · refine arguments_ensures hcompare a e fun x hx y hy => ⟨?_, ?_⟩
      · exact h.actualParts x (ha ▸ Shape.mem_parts_constructed hx)
      · exact h.expectedParts y (he ▸ hy)
    · exact hgeneral
  case h_7 => exact hgeneral

omit h in
/-- `named` comes to a verdict if what the types stand for is found and compared, the pair being assumed from then on.
-/
theorem named_ensures {W : Ty → Prop}
    (hresolve : ∀ {t r}, t.shape = .ref r → W t → (c.resolve r).Ensures total I W)
    (hcompare : (a.text, e.text) ∉ assumed → ∀ x y, W x → W y →
      (c.compare ((a.text, e.text) :: assumed) x y).Ensures total I fun _ => True) (ha : W a) (he : W e) :
    (c.named assumed a e).Ensures total I fun _ => True := by
  unfold named
  dsimp only
  split
  · exact accept_ensures
  next hnew =>
  have hunnamed {x y : Ty} (hx : W x) (hy : W y) :
      (resolvedTypes.unnamed c ((a.text, e.text) :: assumed) a e x y).Ensures total I fun _ => True := by
    unfold resolvedTypes.unnamed
    split
    · exact accept_ensures
    · exact .bind (hcompare (by simpa using hnew) x y hx hy) fun _ _ => .pure trivial
  unfold resolvedTypes
  refine .bind (Resolver.follow_ensures hresolve _ _ ha) fun (decl, x) hx => ?_
  refine .bind (Resolver.follow_ensures hresolve _ _ he) fun (decl', y) hy => ?_
  dsimp only at hx hy ⊢
  split
  · split
    · split
      · exact reject_ensures _
      · split <;> exact .pure trivial
    · exact hunnamed hx hy
  · split <;> exact .pure trivial
  · split <;> exact .pure trivial
  · exact hunnamed hx hy

end Comparer

end Ascribe
