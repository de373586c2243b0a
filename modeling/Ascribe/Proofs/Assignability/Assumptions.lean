import Ascribe.Proofs.Assignability.Correct

/-!
# Comparison under other assumptions

What is accepted while some pairs are assumed is accepted while more are assumed, and an assumption may be
dropped if its pair is accepted by itself (`compareWatched_accepts`). Neither is obvious: assumptions are
recognised by their texts, so one that was made for a pair may have served another pair of the same texts. A
dropped assumption must not have such namesakes among the pairs that are compared.

The comparisons may differ in depth, and in the back-references of the types. Nothing is said about comparisons
that give up.
-/

namespace Ascribe

open Assignability

variable {σ : Type}

/-! ## Pairs that are compared by name -/

namespace Comparer

theorem isSpecial_erase (a e : Ty) : isSpecial a.erase e.erase = isSpecial a e := by
  simp [isSpecial, Option.any_map]

/-- `byName` depends on types up to `erase`. -/
theorem byName_congr {a a' e e' : Ty} (ha : a.erase = a'.erase) (he : e.erase = e'.erase) :
    byName a e = byName a' e' := by
  have herase (a e : Ty) : byName a.erase e.erase = byName a e := by simp [byName, isSpecial_erase]
  rw [← herase a e, ha, he, herase]

end Comparer

/-! ## What is accepted -/

/-- A comparison of some depth accepts two types under some assumptions. -/
def AcceptedUnder (resolve : Resolver σ) (assumed : Assumptions) (a e : Ty) : Prop :=
  ∃ depth s s', (compareWithin resolve depth assumed a e).run s = .ok (.ok (), s')

namespace AcceptedUnder

variable {resolve : Resolver σ} {f : Unfolding} {assumed : Assumptions} {a e : Ty}

theorem judges (depth : Nat) (a e : Ty) :
    Judges False (AcceptedUnder resolve assumed a e) (compareWithin resolve depth assumed a e) := by
  intro s v s' hrun
  refine ⟨False.elim, fun hv => ⟨depth, s, s', ?_⟩⟩
  cases v with
  | error why => exact nomatch hv
  | ok => exact hrun

/-- A pair that is `AcceptedUnder` assumptions is accepted by `Comparer.step` at some depth. -/
theorem step (h : AcceptedUnder resolve assumed a e) :
    ∃ depth s s', (Comparer.step ⟨resolve, compareWithin resolve depth⟩ assumed a e).run s = .ok (.ok (), s') := by
  obtain ⟨depth, s, s', hrun⟩ := h
  cases depth with
  | zero => exact nomatch hrun
  | succ depth => exact ⟨depth, s, s', hrun⟩

/-- Types that are not compared `byName` are accepted by a `Rule` whose premises are `AcceptedUnder` the same
assumptions. -/
theorem rule (hresolve : resolve.Follows f) (h : AcceptedUnder resolve assumed a e)
    (hname : Comparer.byName a e = false) : Rule f (AcceptedUnder resolve assumed) a e := by
  obtain ⟨depth, s, s', hrun⟩ := h.step
  exact (Comparer.step_judges_of_not_byName (judges depth) hresolve hname s _ s' hrun).2 rfl

/-- Types that are compared `byName` are accepted because they are assumed, or what they stand for is `AcceptedUnder`
the assumption of them. -/
theorem resolved (hresolve : resolve.Follows f) (h : AcceptedUnder resolve assumed a e)
    (hname : Comparer.byName a e = true) :
    (a.text, e.text) ∈ assumed ∨
      Resolved (AcceptedUnder resolve ((a.text, e.text) :: assumed)) (f.declared a) (f.declared e) := by
  obtain ⟨depth, s, s', hrun⟩ := h.step
  rw [Comparer.step_of_byName hname] at hrun
  rw [← List.contains_iff_mem]
  exact (Comparer.named_judges hresolve (judges depth) s _ s' hrun).2 rfl

end AcceptedUnder

/-! ## Dropping assumptions -/

/-- Give up on two types that have the texts of one of some pairs and are not the same as that pair. -/
def refuseNamesakes (pairs : List (Ty × Ty)) (a e : Ty) : Search σ Unit :=
  if ∀ p ∈ pairs, a.text = p.1.text → e.text = p.2.text → a.same p.1 = true ∧ e.same p.2 = true then return ()
  else Search.exhausted

/-- `refuseNamesakes` does not change the verdict of a comparison that meets none. -/
theorem compareWithin_of_watched {pairs : List (Ty × Ty)} {resolve : Resolver σ} {depth : Nat}
    {assumed : Assumptions} {a e : Ty} {v : Verdict} {s s' : σ}
    (h : (compareWatched (refuseNamesakes pairs) resolve depth assumed a e).run s = .ok (v, s')) :
    (compareWithin resolve depth assumed a e).run s = .ok (v, s') := by
  have hrel : (Lockstep.deepens σ).Rel (compareWatched (fun _ _ => pure ()) resolve depth assumed a e)
      (compareWatched (refuseNamesakes pairs) resolve depth assumed a e) := by
    refine compareWatched_rel (fun a e => ?_) (fun r => Lockstep.deepens_refl _) depth assumed a e
    unfold refuseNamesakes
    split
    · exact Lockstep.deepens_refl _
    · exact Lockstep.deepens_exhausted _
  rw [compareWatched_pure] at hrel
  rcases hrel s with hdeep | hsame
  · exact nomatch h.symm.trans hdeep
  · exact hsame.trans h

theorem refuseNamesakes_nil : (refuseNamesakes [] : Ty → Ty → Search σ Unit) = fun _ _ => pure () := by
  funext a e
  simp [refuseNamesakes]

section Dropping

variable {resolve : Resolver σ} {f : Unfolding} (hresolve : resolve.Follows f) (hf : f.Respects)
  {pairs : List (Ty × Ty)} (hpairs : ∀ p ∈ pairs, AcceptedUnder resolve [] p.1 p.2)
  {assumed assumed' : Assumptions} (hassumed : assumed ⊆ assumed' ++ assumptions pairs) {a a' e e' : Ty}

include hresolve hf hpairs hassumed

/-- Two types that are compared `byName` stay accepted when assumptions are dropped: what they stand for is
`AcceptedUnder` assumptions some of which may have been dropped in turn. -/
theorem AcceptedUnder.resolved_of_dropped (ha : a.erase = a'.erase) (he : e.erase = e'.erase)
    (h : AcceptedUnder resolve assumed a e) (hname : Comparer.byName a' e' = true)
    (hnot : (a'.text, e'.text) ∉ assumed')
    (hsame : ∀ p ∈ pairs, a'.text = p.1.text → e'.text = p.2.text → a'.same p.1 = true ∧ e'.same p.2 = true) :
    ∃ kept, kept ⊆ ((a'.text, e'.text) :: assumed') ++ assumptions pairs ∧
      Resolved (UpToOrigins (AcceptedUnder resolve kept)) (f.declared a') (f.declared e') := by
  have hatext : a.text = a'.text := by rw [← a.text_erase, ha, a'.text_erase]
  have hetext : e.text = e'.text := by rw [← e.text_erase, he, e'.text_erase]
  have haccepted := h.resolved hresolve ((Comparer.byName_congr ha he).trans hname)
  rw [hatext, hetext] at haccepted
  rcases haccepted with hmem | hresolved
  · -- the assumption of the pair was dropped, so the pair is one of those that are accepted by themselves
    have hpair := (List.mem_append.mp (hassumed hmem)).resolve_left hnot
    obtain ⟨p, hp, htexts⟩ := List.mem_map.mp hpair
    obtain ⟨hap, hep⟩ := hsame p hp (congrArg Prod.fst htexts).symm (congrArg Prod.snd htexts).symm
    rw [Ty.same_iff_erase_eq] at hap hep
    have hresolved := (hpairs p hp).resolved hresolve ((Comparer.byName_congr hap.symm hep.symm).trans hname)
    refine ⟨[(p.1.text, p.2.text)], ?_, ?_⟩
    · rw [htexts]
      exact List.cons_subset.mpr ⟨List.mem_cons_self, List.nil_subset _⟩
    · exact UpToOrigins.resolved hf hap.symm hep.symm (hresolved.resolve_left List.not_mem_nil)
  · refine ⟨(a'.text, e'.text) :: assumed, ?_, UpToOrigins.resolved hf ha he hresolved⟩
    exact List.cons_subset_cons _ hassumed

/-- What is `AcceptedUnder` some assumptions is accepted by `compareWatched` under others, provided that the pairs whose
assumption is dropped are accepted by themselves and that no namesakes of theirs are compared. -/
theorem compareWatched_accepts (depth : Nat) (ha : a.erase = a'.erase) (he : e.erase = e'.erase)
    (h : AcceptedUnder resolve assumed a e) :
    (compareWatched (refuseNamesakes pairs) resolve depth assumed' a' e').Returns (·.holds = true) := by
  induction depth generalizing assumed assumed' a a' e e' with
  | zero => exact .exhausted
  | succ depth ih =>
    have hwatch : (refuseNamesakes pairs a' e' : Search σ Unit).Returns fun _ =>
        ∀ p ∈ pairs, a'.text = p.1.text → e'.text = p.2.text → a'.same p.1 = true ∧ e'.same p.2 = true := by
      unfold refuseNamesakes
      split
      · next hsame => exact .pure hsame
      · exact .exhausted
    refine .bind hwatch fun _ hsame => ?_
    let c : Comparer σ := ⟨resolve, compareWatched (refuseNamesakes pairs) resolve depth⟩
    have hparts {kept assumed' : Assumptions} (hkept : kept ⊆ assumed' ++ assumptions pairs) (x y : Ty) :
        Judges (UpToOrigins (AcceptedUnder resolve kept) x y) True (c.compare assumed' x y) := by
      intro s v s' hrun
      refine ⟨fun ⟨x', y', hx, hy, hxy⟩ => ?_, fun _ => trivial⟩
      exact ih hkept hx hy hxy s v s' hrun
    show (c.step assumed' a' e').Returns _
    cases hname : Comparer.byName a' e' with
    | false =>
      have hrule := h.rule hresolve ((Comparer.byName_congr ha he).trans hname)
      have hstep := Comparer.step_judges_of_not_byName (hparts hassumed) hresolve hname
      exact hstep.accepts (UpToOrigins.rule hf ha he hrule)
    | true =>
      rw [Comparer.step_of_byName hname, Comparer.named]
      split
      · exact .pure rfl
      · next hnot =>
        rw [List.contains_iff_mem] at hnot
        obtain ⟨kept, hkept, hresolved⟩ :=
          h.resolved_of_dropped hresolve hf hpairs hassumed ha he hname hnot hsame
        exact (Comparer.resolvedTypes_judges (hparts hkept) hresolve a' e').accepts hresolved

end Dropping

/-! ## Pairs that are accepted under all assumptions -/

/-- Whatever is assumed, every comparison that ends accepts two types. -/
def Accepted (watch : Ty → Ty → Search σ Unit) (resolve : Resolver σ) (a e : Ty) : Prop :=
  ∀ depth assumed, (compareWatched watch resolve depth assumed a e).Returns (·.holds = true)

section Accepted

variable {watch : Ty → Ty → Search σ Unit} {resolve : Resolver σ} {f : Unfolding} (hresolve : resolve.Follows f)
  {a a' e e' : Ty}

include hresolve

/-- `compareWatched` accepts two types if a `Rule` justifies them with premises that it accepts at one depth less. -/
theorem compareWatched_step {depth : Nat} {assumed : Assumptions} {R : Ty → Ty → Prop}
    (hparts : ∀ x y, R x y → ∀ assumed, (compareWatched watch resolve depth assumed x y).Returns (·.holds = true))
    (h : Rule f R a e) :
    (compareWatched watch resolve (depth + 1) assumed a e).Returns (·.holds = true) := by
  let c : Comparer σ := ⟨resolve, compareWatched watch resolve depth⟩
  have hjudges (assumed : Assumptions) (x y : Ty) : Judges (R x y) True (c.compare assumed x y) :=
    fun s v s' hrun => ⟨fun hxy => hparts x y hxy assumed s v s' hrun, fun _ => trivial⟩
  have hstep := Comparer.step_judges (hjudges assumed) hresolve (hjudges ((a.text, e.text) :: assumed))
  exact .bind (P := fun _ => True) (fun _ _ _ _ => trivial) fun _ _ => hstep.accepts h

/-- What a `Rule` justifies with premises that are `Accepted` is `Accepted`. -/
theorem Accepted.of_rule (h : Rule f (Accepted watch resolve) a e) : Accepted watch resolve a e := by
  intro depth assumed
  cases depth with
  | zero => exact .exhausted
  | succ depth => exact compareWatched_step hresolve (fun x y hxy => hxy depth) h

/-- What is `AcceptedUnder` no assumptions is `Accepted` under all of them. -/
theorem AcceptedUnder.accepted (hf : f.Respects) (h : AcceptedUnder resolve [] a e) :
    Accepted (refuseNamesakes []) resolve a e := by
  intro depth assumed
  have hnone : ∀ p ∈ ([] : List (Ty × Ty)), AcceptedUnder resolve [] p.1 p.2 := by simp
  exact compareWatched_accepts hresolve hf hnone (List.nil_subset _) depth rfl rfl h

/-- If two types are `AcceptedUnder` no assumptions, then two others that a `Rule` justifies from the same premises are
`Accepted`, as long as no namesakes of the former are compared. -/
theorem AcceptedUnder.accepted_of_rule (hf : f.Respects) (h : AcceptedUnder resolve [] a e)
    (hrule : ∀ R : Ty → Ty → Prop, (∀ x y, Accepted (refuseNamesakes [(a, e)]) resolve x y → R x y) →
      Rule f R a e → Rule f R a' e') : Accepted (refuseNamesakes [(a, e)]) resolve a' e' := by
  intro depth assumed
  cases depth with
  | zero => exact .exhausted
  | succ depth =>
    -- the premises are accepted by themselves, or under the assumption of the first two types
    let R (x y : Ty) : Prop := AcceptedUnder resolve [] x y ∨ AcceptedUnder resolve [(a.text, e.text)] x y ∨
      Accepted (refuseNamesakes [(a, e)]) resolve x y
    have hpremises : Rule f R a e := by
      cases hname : Comparer.byName a e with
      | false => exact (h.rule hresolve hname).mono fun _ _ => .inl
      | true =>
        rw [Comparer.rule_of_byName hname]
        have hresolved := (h.resolved hresolve hname).resolve_left List.not_mem_nil
        exact hresolved.mono fun _ _ hxy => .inr (.inl hxy)
    have hpairs : ∀ p ∈ [(a, e)], AcceptedUnder resolve [] p.1 p.2 := by
      intro p hp
      rw [List.mem_singleton.mp hp]
      exact h
    refine compareWatched_step hresolve ?_ (hrule R (fun x y hxy => .inr (.inr hxy)) hpremises)
    rintro x y (hxy | hxy | hxy) assumed
    · exact compareWatched_accepts hresolve hf hpairs (List.nil_subset _) depth rfl rfl hxy
    · exact compareWatched_accepts hresolve hf hpairs (List.subset_append_right _ _) depth rfl rfl hxy
    · exact hxy depth assumed

end Accepted

end Ascribe
