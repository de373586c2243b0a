import Ascribe.Proofs.Assignability.Assumptions
import Ascribe.Proofs.Checker.Independence
import Ascribe.Proofs.Typing.Expansion

/-!
# Comparison by what named types stand for

A checker compares types by asking itself what named types stand for, through its memos. Where these questions
settle, their answers are those of a fixed function from named types to types, the `unfolding` of the tree, and
of a resolver without a state, `Checker.resolver`. So what is known about comparison over a fixed unfolding
holds of a checker.

## Key results

- `unfolding_respects`, `Checker.resolver_follows`: the resolver answers as the unfolding does
- `Checker.compareWithin_of_direct`: a comparison without a memo is the comparison over that resolver
- `AskedWithin.accepts_iff`: the verdict of a checker is the verdict without a memo
- `AskedWithin.acceptedUnder`, `EndsApart.accepts`: what a checker accepts is what is accepted over the resolver
-/

namespace Ascribe

open Assignability

/-! ## Forgetting the checker -/

namespace Infer

variable {α : Type} {s : Settings} {x : Infer α} {v : α}

/-- The answer of a search on a new checker, without the checker. -/
def onNew (s : Settings) (x : Infer α) : Search Unit α :=
  fun _ => (fun found => (found.1, ())) <$> x.run { settings := s }

theorem run_onNew : (x.onNew s).run () = .ok (v, ()) ↔ ∃ c, x.run { settings := s } = .ok (v, c) := by
  change (fun found => (found.1, ())) <$> x.run { settings := s } = _ ↔ _
  cases x.run { settings := s } with
  | error fault => simp
  | ok found => simp [Prod.ext_iff]

end Infer

/-- A search whose answers under some settings another one gives without a checker. -/
def Lockstep.forgets (s : Settings) : Lockstep Checker Unit where
  Rel x y := x.ReturnsUnder (·.settings = s) fun v => y.run () = .ok (v, ())
  pure a := .pure rfl
  throw fault := fun c v c' hc hrun => nomatch hrun
  bind := by
    intro α β x y k l hx hk
    refine hx.bind fun a ha => (hk a).mono fun w hw => ?_
    exact Search.run_bind_eq_ok.mpr ⟨a, (), ha, hw⟩

/-! ## The unfolding of a tree -/

section Unfolding

variable (p : Tree) (known : Reference Ty → Bool) (s : Settings)

open Classical in
/-- What named types stand for, where that settles for a named type of the same key; any other named type stands
for itself. -/
noncomputable def unfolding : Unfolding :=
  fun r => if h : ∃ t r', r'.key = r.key ∧ StandsFor p known s r' t then h.choose else .of (.ref r)

/-- What named types stand for, found without a memo on a new checker. -/
def Checker.resolver : Resolver Unit :=
  fun r => Infer.onNew s ((directFor p known s).resolve r)

end Unfolding

variable {p : Tree} {known : Reference Ty → Bool} {s : Settings}

theorem unfolding_eq_of_standsFor (hkeys : KeysAgree p known s) {r r' : Reference Ty} {t : Ty}
    (h : StandsFor p known s r t) (hkey : r.key = r'.key) : unfolding p known s r' = t := by
  have hsome : ∃ t r'', r''.key = r'.key ∧ StandsFor p known s r'' t := ⟨t, r, hkey, h⟩
  rw [unfolding, dif_pos hsome]
  obtain ⟨r'', hkey', h'⟩ := hsome.choose_spec
  exact (hkeys r'' r h'.isKnown h.isKnown (hkey'.trans hkey.symm) _ h').unique h

theorem Checker.standsFor_of_run {r : Reference Ty} {t : Ty} {c : Checker}
    (h : ((directFor p known s).resolve r).run { settings := s } = .ok (t, c)) : StandsFor p known s r t :=
  ⟨_, _, (direct_indifferent _ _).resolve r { settings := s } t c rfl h⟩

/-- `unfolding` lets a named type stand for itself or for a type that is not named. -/
theorem unfolding_ends (r : Reference Ty) :
    unfolding p known s r = .of (.ref r) ∨ (unfolding p known s r).reference? = none := by
  rw [unfolding]
  split
  · next hsome =>
    obtain ⟨r', -, h⟩ := hsome.choose_spec
    exact .inr h.reference?_eq_none
  · exact .inl rfl

/-- Named types that are the same have the same `key`. -/
theorem Reference.key_congr {r r' : Reference Ty} (h : (Ty.of (.ref r)).same (.of (.ref r')) = true) :
    r.key = r'.key := by
  rw [Ty.same_iff_erase_eq] at h
  have href := congrArg Ty.reference? h
  rw [Ty.reference?_erase, Ty.reference?_erase] at href
  simp only [Ty.reference?, Ty.of, Option.map_some, Option.some.injEq, Reference.mk.injEq] at href
  obtain ⟨hdecl, -, hargs⟩ := href
  have htexts := congrArg (List.map Ty.text) hargs
  simp only [List.map_map, Function.comp_def, Ty.text_erase] at htexts
  rw [key, key, hdecl, htexts]

theorem unfolding_respects : (unfolding p known s).Respects := by
  intro r r' h
  rw [unfolding, unfolding, Reference.key_congr h]
  split
  · exact Ty.same_refl _
  · exact h

theorem Checker.resolver_follows (hkeys : KeysAgree p known s) :
    (resolver p known s).Follows (unfolding p known s) := by
  intro r _ t _ hrun
  obtain ⟨c, hrun⟩ := Infer.run_onNew.mp hrun
  exact (unfolding_eq_of_standsFor hkeys (standsFor_of_run hrun) rfl).symm

/-! ## Comparison over the unfolding -/

namespace Checker

variable {depth references : Nat}

theorem resolve_forgets (hdepth : depth ≤ questionDepth p s) :
    Resolver.InStep (.forgets s) (direct p known depth references).resolve (resolver p known s) := by
  intro r
  refine ((direct_indifferent depth references).resolve r).returnsUnder.mono fun t hyields => ?_
  obtain ⟨c, hrun, -⟩ := hyields.resolve_mono hdepth (Nat.zero_le _) { settings := s } rfl
  exact Infer.run_onNew.mpr ⟨c, hrun⟩

/-- `compare` of `direct` is `compareWithin` over the `resolver` without a state. -/
theorem compare_forgets (hdepth : depth ≤ questionDepth p s) (assumed : Assumptions) (a e : Ty) :
    (Lockstep.forgets s).Rel ((direct p known depth references).compare assumed a e)
      (compareWithin (resolver p known s) depth assumed a e) := by
  induction depth generalizing assumed a e with
  | zero => exact (Lockstep.forgets s).exhausted
  | succ depth ih =>
    have hbelow : depth ≤ questionDepth p s := Nat.le_of_succ_le hdepth
    exact Comparer.InStep.step ⟨resolve_forgets hbelow, ih hbelow⟩ assumed a e

theorem compareWithin_of_direct {a e : Ty} {v : Verdict} {c : Checker}
    (h : ((directFor p known s).compare [] a e).run { settings := s } = .ok (v, c)) :
    (compareWithin (resolver p known s) (questionDepth p s) [] a e).run () = .ok (v, ()) :=
  (compare_forgets (Nat.le_refl _) [] a e { settings := s } v c rfl h).2

/-- A checker finds that one type is assignable to another. -/
def Accepts (p : Tree) (c : Checker) (a e : Ty) : Prop :=
  ∃ c', (Checker.compare p a e).run c = .ok (.ok (), c')

end Checker

/-- The verdict of a checker that is `AskedWithin` is the one without a memo, if there is one. -/
theorem AskedWithin.accepts_iff (hkeys : KeysAgree p known s) {c : Checker}
    (hasked : AskedWithin p known { settings := s } c) {a e : Ty} {v : Verdict} {c₀ : Checker}
    (h : ((Checker.directFor p known s).compare [] a e).run { settings := s } = .ok (v, c₀)) :
    c.Accepts p a e ↔ v.holds = true := by
  obtain ⟨c', hrun, -⟩ := hasked.tracked hkeys (k := (·.compare [] a e)) (fun hq => hq.compare [] a e) h
  change (Checker.compare p a e).run c = .ok (v, c') at hrun
  unfold Checker.Accepts
  rw [hrun]
  cases v with
  | error why => simp [Verdict.holds]
  | ok => simp [Verdict.holds]

/-- What a checker accepts is `AcceptedUnder` no assumptions over `resolver`, if the comparison ends without a memo. -/
theorem AskedWithin.acceptedUnder (hkeys : KeysAgree p known s) {c : Checker}
    (hasked : AskedWithin p known { settings := s } c) {a e : Ty}
    (hends : ∃ v c₀, ((Checker.directFor p known s).compare [] a e).run { settings := s } = .ok (v, c₀))
    (h : c.Accepts p a e) : AcceptedUnder (Checker.resolver p known s) [] a e := by
  obtain ⟨v, c₀, hrun⟩ := hends
  have hholds := (hasked.accepts_iff hkeys hrun).mp h
  exact (AcceptedUnder.judges _ a e () v () (Checker.compareWithin_of_direct hrun)).2 hholds

/-- Without a memo the comparison of `a` and `e` ends, and it compares no other types that have the texts of `a'` and
`e'` unless they are the same as these. -/
structure EndsApart (p : Tree) (known : Reference Ty → Bool) (s : Settings) (a e a' e' : Ty) : Prop where
  ends : ∃ v c, ((Checker.directFor p known s).compare [] a e).run { settings := s } = .ok (v, c)
  apart : ∃ v, (compareWatched (refuseNamesakes [(a', e')]) (Checker.resolver p known s)
    (Checker.questionDepth p s) [] a e).run () = .ok (v, ())

theorem EndsApart.of_runs {a e a' e' : Ty}
    (hends : (((Checker.directFor p known s).compare [] a e).run { settings := s }).toOption.any fun _ => true)
    (hapart : ((compareWatched (refuseNamesakes [(a', e')]) (Checker.resolver p known s) (Checker.questionDepth p s)
      [] a e).run ()).toOption.any fun _ => true) : EndsApart p known s a e a' e' := by
  obtain ⟨v, c, hrun, -⟩ := Search.exists_run_of_any (P := fun _ => true) hends
  obtain ⟨w, _, hwatched, -⟩ := Search.exists_run_of_any (P := fun _ => true) hapart
  exact ⟨⟨v, c, hrun⟩, ⟨w, hwatched⟩⟩

/-- A comparison that `EndsApart` from namesakes of a pair accepts what is accepted apart from them. -/
theorem EndsApart.accepts (hkeys : KeysAgree p known s) {c : Checker}
    (hasked : AskedWithin p known { settings := s } c) {a e a' e' : Ty} (hends : EndsApart p known s a e a' e')
    (h : Accepted (refuseNamesakes [(a', e')]) (Checker.resolver p known s) a e) : c.Accepts p a e := by
  obtain ⟨⟨v, c₀, hrun⟩, ⟨w, hwatched⟩⟩ := hends
  have hverdict := (Checker.compareWithin_of_direct hrun).symm.trans (compareWithin_of_watched hwatched)
  obtain ⟨rfl, -⟩ := Prod.mk.inj (Except.ok.inj hverdict)
  exact (hasked.accepts_iff hkeys hrun).mpr (h _ _ () v () hwatched)

end Ascribe
