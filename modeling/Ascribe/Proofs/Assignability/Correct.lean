import Ascribe.Proofs.Assignability.Coinduction
import Ascribe.Proofs.Assignability.Lockstep
import Ascribe.Proofs.Assignability.StepSpec

/-!
# Comparison decides assignability

A comparison assumes the pairs of named types that are being compared further out, and it recognises them
by their texts. It still decides the greatest relation closed under the rules, as long as no two of the types
it meets have one text without being the same.

`compareWatched` is a comparison that may do something whenever it meets two types. Watched by nothing it
is the comparison itself (`compareWatched_pure`). `typesMet` are the types that a comparison meets, found by
noting them; and giving up on any other type changes nothing (`compareWatched_among`). A comparison that only
meets types told apart by their texts is sound and complete (`compareWatched_judges`).
-/

namespace Ascribe

open Assignability

variable {σ : Type}

/-- Compare two types to some depth, and do something about each two types that are met. -/
def compareWatched (watch : Ty → Ty → Search σ Unit) (resolve : Resolver σ) :
    Nat → Assumptions → Ty → Ty → Search σ Verdict
  | 0, _, _, _ => Search.exhausted
  | depth + 1, assumed, actual, expected => do
    watch actual expected
    Comparer.step ⟨resolve, compareWatched watch resolve depth⟩ assumed actual expected

/-- Keep the types that are met beside the state of a search. -/
def noteTypes (actual expected : Ty) : Search (σ × List Ty) Unit :=
  modify fun (s, met) => (s, actual :: expected :: met)

/-- A resolver that leaves alone what is kept beside its state. -/
def Resolver.beside {κ : Type} (resolve : Resolver σ) : Resolver (σ × κ) :=
  fun r (s, kept) => do
    let (t, s') ← (resolve r).run s
    return (t, (s', kept))

/-- The types that a comparison meets, from a given state; none if it gives up. -/
def typesMet (resolve : Resolver σ) (depth : Nat) (actual expected : Ty) (s : σ) : List Ty :=
  match (compareWatched noteTypes resolve.beside depth [] actual expected).run (s, []) with
  | .ok (_, _, met) => met
  | .error _ => []

open Classical in
/-- Give up on types other than some. -/
noncomputable def onlyAmong (met : List Ty) (actual expected : Ty) : Search σ Unit :=
  if actual ∈ met ∧ expected ∈ met then return () else Search.exhausted

theorem compareWatched_pure (resolve : Resolver σ) (depth : Nat) (assumed : Assumptions)
    (actual expected : Ty) :
    compareWatched (fun _ _ => pure ()) resolve depth assumed actual expected =
      compareWithin resolve depth assumed actual expected := by
  induction depth generalizing assumed actual expected with
  | zero => rfl
  | succ depth ih =>
    have hcompare : compareWatched (fun _ _ => pure ()) resolve depth = compareWithin resolve depth := by
      funext assumed actual expected
      exact ih assumed actual expected
    rw [compareWatched, compareWithin, pure_bind, hcompare]

theorem compareWatched_rel {τ : Type} {L : Lockstep σ τ} {watch : Ty → Ty → Search σ Unit}
    {watch' : Ty → Ty → Search τ Unit} {resolve : Resolver σ} {resolve' : Resolver τ}
    (hwatch : ∀ a e, L.Rel (watch a e) (watch' a e)) (hresolve : resolve.InStep L resolve')
    (depth : Nat) (assumed : Assumptions) (actual expected : Ty) :
    L.Rel (compareWatched watch resolve depth assumed actual expected)
      (compareWatched watch' resolve' depth assumed actual expected) := by
  induction depth generalizing assumed actual expected with
  | zero => exact L.exhausted
  | succ depth ih =>
    exact L.bind (hwatch actual expected) fun _ =>
      Comparer.InStep.step ⟨hresolve, ih⟩ assumed actual expected

/-! ## The types a comparison meets -/

/-- Whatever one search answers, the other answers as well, keeping something beside its state. -/
def Lockstep.keeping (σ κ : Type) : Lockstep σ (σ × κ) where
  Rel x y := ∀ s v s' kept, x.run s = .ok (v, s') → ∃ kept', y.run (s, kept) = .ok (v, (s', kept'))
  pure a := by
    rintro s v s' kept h
    obtain ⟨rfl, rfl⟩ := Prod.mk.inj (Except.ok.inj h)
    exact ⟨kept, rfl⟩
  throw fault := by
    intro s v s' kept h
    exact nomatch h
  bind := by
    intro α β x y k l hx hk s v s' kept h
    obtain ⟨a, s₁, ha, hv⟩ := Search.run_bind_eq_ok.mp h
    obtain ⟨kept₁, ha'⟩ := hx s a s₁ kept ha
    obtain ⟨kept', hv'⟩ := hk a s₁ v s' kept₁ hv
    exact ⟨kept', Search.run_bind_eq_ok.mpr ⟨a, (s₁, kept₁), ha', hv'⟩⟩

/-- What is kept only grows, and if nothing but the given types are kept in the end, the other search
answers the same. -/
def Lockstep.keptAmong (σ : Type) (met : List Ty) : Lockstep (σ × List Ty) σ where
  Rel x y := ∀ s kept v s' kept', x.run (s, kept) = .ok (v, (s', kept')) →
    kept ⊆ kept' ∧ (kept' ⊆ met → y.run s = .ok (v, s'))
  pure a := by
    rintro s kept v s' kept' h
    obtain ⟨rfl, hs⟩ := Prod.mk.inj (Except.ok.inj h)
    obtain ⟨rfl, rfl⟩ := Prod.mk.inj hs
    exact ⟨List.Subset.refl _, fun _ => rfl⟩
  throw fault := by
    intro s kept v s' kept' h
    exact nomatch h
  bind := by
    intro α β x y k l hx hk s kept v s' kept' h
    obtain ⟨a, ⟨s₁, kept₁⟩, ha, hv⟩ := Search.run_bind_eq_ok.mp h
    obtain ⟨hgrow, hsame⟩ := hx s kept a s₁ kept₁ ha
    obtain ⟨hgrow', hsame'⟩ := hk a s₁ kept₁ v s' kept' hv
    refine ⟨List.Subset.trans hgrow hgrow', fun hmet => ?_⟩
    have ha' := hsame (List.Subset.trans hgrow' hmet)
    exact Search.run_bind_eq_ok.mpr ⟨a, s₁, ha', hsame' hmet⟩

/-- `compareWithin` gives the same answer when it runs with `noteTypes`, which ends with `typesMet`. -/
theorem compareNoting_run {resolve : Resolver σ} {depth : Nat} {actual expected : Ty} {s s' : σ}
    {v : Verdict} (h : (compareWithin resolve depth [] actual expected).run s = .ok (v, s')) :
    (compareWatched noteTypes resolve.beside depth [] actual expected).run (s, []) =
      .ok (v, (s', typesMet resolve depth actual expected s)) := by
  have hrel : (Lockstep.keeping σ (List Ty)).Rel
      (compareWatched (fun _ _ => pure ()) resolve depth [] actual expected)
      (compareWatched noteTypes resolve.beside depth [] actual expected) := by
    refine compareWatched_rel ?_ ?_ _ _ _ _
    · intro a e s v s' kept h
      obtain ⟨-, rfl⟩ := Prod.mk.inj (Except.ok.inj h)
      exact ⟨a :: e :: kept, rfl⟩
    · intro r s v s' kept h
      refine ⟨kept, ?_⟩
      change ((resolve r).run s >>= fun p => pure (p.1, (p.2, kept))) = _
      rw [h]
      rfl
  -- the types noted by this run are the types met, by definition
  rw [← compareWatched_pure] at h
  obtain ⟨met, hmet⟩ := hrel s v s' [] h
  rw [hmet, typesMet, hmet]

/-- `onlyAmong` the `typesMet` of a comparison changes nothing. -/
theorem compareWatched_among {resolve : Resolver σ} {depth : Nat} {actual expected : Ty} {s s' : σ}
    {v : Verdict} (h : (compareWithin resolve depth [] actual expected).run s = .ok (v, s')) :
    (compareWatched (onlyAmong (typesMet resolve depth actual expected s)) resolve depth []
      actual expected).run s = .ok (v, s') := by
  have hrel : (Lockstep.keptAmong σ (typesMet resolve depth actual expected s)).Rel
      (compareWatched noteTypes resolve.beside depth [] actual expected)
      (compareWatched (onlyAmong (typesMet resolve depth actual expected s)) resolve depth []
        actual expected) := by
    refine compareWatched_rel ?_ ?_ _ _ _ _
    · intro a e s kept v s' kept' h
      obtain ⟨-, hs⟩ := Prod.mk.inj (Except.ok.inj h)
      obtain ⟨rfl, rfl⟩ := Prod.mk.inj hs
      -- two types that are noted are among the types met, so they are not given up on
      refine ⟨fun t ht => .tail _ (.tail _ ht), fun hmet => ?_⟩
      have hboth := And.intro (hmet List.mem_cons_self) (hmet (.tail _ List.mem_cons_self))
      rw [onlyAmong, if_pos hboth]
      rfl
    · intro r s kept v s' kept' h
      change ((resolve r).run s >>= fun p => pure (p.1, (p.2, kept))) = _ at h
      cases hr : (resolve r).run s with
      | error fault =>
        rw [hr] at h
        exact nomatch h
      | ok p =>
        rw [hr] at h
        obtain ⟨rfl, hs⟩ := Prod.mk.inj (Except.ok.inj h)
        obtain ⟨rfl, rfl⟩ := Prod.mk.inj hs
        exact ⟨List.Subset.refl _, fun _ => rfl⟩
  exact (hrel s [] v s' _ (compareNoting_run h)).2 (List.Subset.refl _)

/-! ## Soundness and completeness -/

/-- The pairs that are assumed, up to sameness. -/
def Assumed (pairs : List (Ty × Ty)) (a e : Ty) : Prop :=
  ∃ p ∈ pairs, a.erase = p.1.erase ∧ e.erase = p.2.erase

theorem assumed_erase (pairs : List (Ty × Ty)) (a e : Ty) :
    Assumed pairs a.erase e.erase ↔ Assumed pairs a e := by
  simp only [Assumed, Ty.erase_erase]

/-- The assumptions that a comparison keeps for some pairs. -/
def assumptions (pairs : List (Ty × Ty)) : Assumptions :=
  pairs.map fun p => (p.1.text, p.2.text)

theorem assumed_cons (a e : Ty) (pairs : List (Ty × Ty)) :
    Assumed ((a, e) :: pairs) = Assumed [(a, e)] ⊔ Assumed pairs := by
  funext x y
  simp [Assumed]

/-- A pair whose texts `assumptions` contains is `Assumed`, if the texts tell the types apart. -/
theorem assumed_of_texts {met : List Ty}
    (htexts : ∀ t ∈ met, ∀ u ∈ met, t.text = u.text → t.same u = true) {pairs : List (Ty × Ty)}
    (hpairs : ∀ p ∈ pairs, p.1 ∈ met ∧ p.2 ∈ met) {a e : Ty} (ha : a ∈ met) (he : e ∈ met)
    (h : (assumptions pairs).contains (a.text, e.text) = true) : Assumed pairs a e := by
  simp only [assumptions, List.contains_iff_mem, List.mem_map, Prod.mk.injEq] at h
  obtain ⟨p, hp, hatext, hetext⟩ := h
  obtain ⟨hp₁, hp₂⟩ := hpairs p hp
  refine ⟨p, hp, ?_, ?_⟩
  · exact (Ty.same_iff_erase_eq _ _).mp (htexts a ha p.1 hp₁ hatext.symm)
  · exact (Ty.same_iff_erase_eq _ _).mp (htexts e he p.2 hp₂ hetext.symm)

/-- A pair that a `Rule` justifies under the assumption of itself is `Justified` without it. -/
theorem justified_of_rule {f : Unfolding} (hf : f.Respects) {pairs : List (Ty × Ty)} {a e : Ty}
    (h : Rule f (Justified f (Assumed ((a, e) :: pairs)) ⊔ Assumed ((a, e) :: pairs)) a e) :
    Justified f (Assumed pairs) a e := by
  have herase (x y : Ty) :
      (Justified f (Assumed ((a, e) :: pairs)) ⊔ Assumed ((a, e) :: pairs)) x.erase y.erase ↔
        (Justified f (Assumed ((a, e) :: pairs)) ⊔ Assumed ((a, e) :: pairs)) x y :=
    or_congr (justified_erase hf (assumed_erase _) x y) (assumed_erase _ x y)
  suffices hpair : Assumed [(a, e)] ≤ Justified f (Assumed pairs) from
    hpair a e ⟨(a, e), List.mem_cons_self, rfl, rfl⟩
  refine Justified.discharge ?_
  rw [← assumed_cons]
  rintro x y ⟨p, hp, hx, hy⟩
  obtain rfl := List.mem_singleton.mp hp
  -- the rule that justifies the pair justifies every pair that is the same
  rw [← rule_erase herase hf] at h ⊢
  rwa [hx, hy]

/-- `compareWatched` with some assumptions, `onlyAmong` types that their texts tell apart, accepts all that is
`Assignable` and only what is `Assumed` or `Justified` under the assumptions. -/
theorem compareWatched_judges {resolve : Resolver σ} {f : Unfolding} (hresolve : resolve.Follows f)
    (hf : f.Respects) {met : List Ty}
    (htexts : ∀ t ∈ met, ∀ u ∈ met, t.text = u.text → t.same u = true) (depth : Nat)
    {pairs : List (Ty × Ty)} (hpairs : ∀ p ∈ pairs, p.1 ∈ met ∧ p.2 ∈ met) (a e : Ty) :
    Judges (Assignable f a e) ((Justified f (Assumed pairs) ⊔ Assumed pairs) a e)
      (compareWatched (onlyAmong met) resolve depth (assumptions pairs) a e) := by
  -- by induction on the depth, for any pairs that are assumed further out
  induction depth generalizing pairs a e with
  | zero => exact .exhausted
  | succ depth ih =>
    have hwatch : (onlyAmong met a e : Search σ Unit).Returns fun _ => a ∈ met ∧ e ∈ met := by
      unfold onlyAmong
      split
      · next hmet => exact .pure hmet
      · exact .exhausted
    refine .bind hwatch fun _ hmet => ?_
    -- the parts are compared under the assumptions, to which the pair itself may be added
    let hi := Justified f (Assumed ((a, e) :: pairs)) ⊔ Assumed ((a, e) :: pairs)
    have hweaker : Assumed pairs ≤ Assumed ((a, e) :: pairs) :=
      fun x y ⟨p, hp, h⟩ => ⟨p, List.mem_cons_of_mem _ hp, h⟩
    have hcompare (x y : Ty) : Judges (Assignable f x y) (hi x y)
        (compareWatched (onlyAmong met) resolve depth (assumptions pairs) x y) :=
      (ih hpairs x y).mono id (Or.imp (Justified.mono hweaker x y) (hweaker x y))
    have hassume (x y : Ty) : Judges (Assignable f x y) (hi x y)
        (compareWatched (onlyAmong met) resolve depth (assumptions ((a, e) :: pairs)) x y) :=
      ih (List.forall_mem_cons.mpr ⟨hmet, hpairs⟩) x y
    refine (Comparer.step_judges hcompare hresolve hassume).mono rule_iff_assignable.mpr ?_
    rintro (hassumed | hrule)
    · exact .inr (assumed_of_texts htexts hpairs hmet.1 hmet.2 hassumed)
    · exact .inl (justified_of_rule hf hrule)

/-- `compareWithin` decides `Assignable`: over a resolver that answers as a fixed unfolding of named types, a comparison
that starts without assumptions and gives an answer accepts exactly the pairs of the greatest relation closed under
`Rule`. No two of `typesMet` may have one text without being the same, since the assumptions are recognised by their
texts. -/
theorem compareWithin_holds_iff_assignable {resolve : Resolver σ} {f : Unfolding}
    (hresolve : resolve.Follows f) (hf : f.Respects) {depth : Nat} {actual expected : Ty} {s s' : σ}
    {v : Verdict} (hrun : (compareWithin resolve depth [] actual expected).run s = .ok (v, s'))
    (htexts : ∀ t ∈ typesMet resolve depth actual expected s,
      ∀ u ∈ typesMet resolve depth actual expected s, t.text = u.text → t.same u = true) :
    v.holds = true ↔ Assignable f actual expected := by
  have hjudges := compareWatched_judges hresolve hf htexts depth
    (List.forall_mem_nil _) actual expected s v s' (compareWatched_among hrun)
  -- nothing is assumed at the start, so what is justified is assignable
  have hnone : Assumed [] = ⊥ := by
    funext x y
    simp [Assumed]
  rw [hnone, justified_bot, sup_bot_eq] at hjudges
  exact ⟨hjudges.2, hjudges.1⟩

/-- Declarations of list nodes: each holds a node of its own kind or null, and then a value. The last one
holds a string, the others a number. -/
def listNodes : Unfolding :=
  fun r => .struct [
    { name := "next", type := .nullable (.reference r.decl r.name []) },
    { name := "value", type := .prim (if r.decl = 2 then .string else .i32) }] false

theorem listNodes_respects : listNodes.Respects := by
  intro r r' h
  simp only [Ty.same_eq, Ty.of, Shape.agree, Bool.and_eq_true, beq_iff_eq] at h
  obtain ⟨⟨hdecl, hname⟩, -⟩ := h
  rw [listNodes, listNodes, hdecl, hname]
  exact Ty.same_refl _

/-- Kinds of `listNodes` with the same values are `Assignable` to each other. If the values differ, the tails are
compared first and accepted because the pair is assumed, but the lists are not assignable. -/
theorem listNodes_assignable :
    Assignable listNodes (.reference 0 "A" []) (.reference 1 "B" []) ∧
      ¬ Assignable listNodes (.reference 0 "A" []) (.reference 2 "C" []) := by
  let resolve : Resolver Unit := fun r => pure (listNodes r)
  have hresolve : resolve.Follows listNodes := fun r => .pure rfl
  let why : Mismatch := .resolved (.reference 0 "A" []) (.reference 2 "C" [])
    (.field "value" (.unlike (.prim .i32) (.prim .string)))
  have hsame : (compareWithin resolve 9 [] (.reference 0 "A" []) (.reference 1 "B" [])).run () =
      .ok (.ok (), ()) := rfl
  have hdiffer : (compareWithin resolve 9 [] (.reference 0 "A" []) (.reference 2 "C" [])).run () =
      .ok (.error why, ()) := rfl
  constructor
  · exact (compareWithin_holds_iff_assignable hresolve listNodes_respects hsame (by decide)).mp rfl
  · intro h
    exact nomatch (compareWithin_holds_iff_assignable hresolve listNodes_respects hdiffer (by decide)).mpr h

end Ascribe
