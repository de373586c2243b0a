import Ascribe.Proofs.Assignability.Rules
import Ascribe.Proofs.Search.Returns

/-!
# What one step of a comparison answers

`Comparer.step` follows the rules of `Assignability.Rule`. If the resolver answers as an unfolding and
the comparison of parts lies between two relations, then so does each search that a step is made of,
with the rule that describes it at the two relations.

## Key results

- `Resolver.Follows.declared`, `Resolver.Follows.interfaceMethods`: a resolver that answers as an
  unfolding finds the declarations and the methods that the unfolding has
- `Comparer.structural_judges`, `Comparer.resolvedTypes_judges`: types that are not named, and what named
  types stand for, are compared by their rules
- `Comparer.step_judges_of_not_byName`: unless a step comes down to what two types stand for, it accepts exactly
  what a rule with accepted premises justifies
- `Comparer.step_judges`: a step accepts what a rule with accepted premises justifies, and it accepts
  only what is assumed or justified by a rule with accepted premises
-/

namespace Ascribe

open Assignability

variable {σ : Type}

/-- Whenever the resolver answers, it answers as the unfolding does. -/
def Resolver.Follows (resolve : Resolver σ) (f : Unfolding) : Prop :=
  ∀ r, (resolve r).Returns (· = f r)

/-- The verdict is positive if `lo` holds, and only if `hi` does. -/
def Judges (lo hi : Prop) (x : Search σ Verdict) : Prop :=
  x.Returns fun verdict => Between lo hi verdict.holds

/-- `Judges` is monotone: the lower bound may be strengthened, and the upper one weakened. -/
theorem Judges.mono {lo lo' hi hi' : Prop} {x : Search σ Verdict} (h : Judges lo hi x) (hlo : lo' → lo)
    (hhi : hi → hi') : Judges lo' hi' x :=
  Search.Returns.mono h fun _ hverdict => hverdict.mono hlo hhi

/-- The verdict is positive if `lo` holds. -/
theorem Judges.accepts {lo hi : Prop} {x : Search σ Verdict} (h : Judges lo hi x) (hlo : lo) :
    x.Returns (·.holds = true) :=
  Search.Returns.mono h fun _ hverdict => hverdict.1 hlo

namespace Resolver.Follows

variable {resolve : Resolver σ} {f : Unfolding} (hresolve : resolve.Follows f)

include hresolve

theorem follow (steps : Nat) (decl : Option NodeId) (t : Ty) :
    (resolve.follow steps decl t).Returns (· = f.follow steps decl t) := by
  induction steps generalizing decl t with
  | zero => exact .pure rfl
  | succ steps ih =>
    simp only [Resolver.follow, Unfolding.follow]
    cases t.reference? with
    | none => exact .pure rfl
    | some r =>
      refine .bind (hresolve r) ?_
      rintro _ rfl
      dsimp only
      split
      · exact .pure rfl
      · exact ih _ _

theorem declared (t : Ty) : (resolve.declared t).Returns (· = f.declared t) :=
  hresolve.follow maxAliasChain none t

theorem target (t : Ty) : (resolve.target t).Returns (· = (f.declared t).2) :=
  .map ((hresolve.declared t).mono fun _ h => congrArg Prod.snd h)

theorem inherited (visits : Nat) (seen pending : List Ty) :
    (resolve.inherited visits seen pending).Returns (· = f.inherited visits seen pending) := by
  induction visits generalizing seen pending with
  | zero => exact .pure rfl
  | succ visits ih =>
    simp only [Resolver.inherited, Unfolding.inherited]
    cases pending.dropWhile seen.contains with
    | nil => exact .pure rfl
    | cons t rest =>
      refine .bind (hresolve.target t) ?_
      rintro _ rfl
      simp only [Ty.interface?]
      cases (f.declared t).2.shape with
      | interface body => exact .bind (ih _ _) fun _ h => .pure (by rw [h])
      | _ => exact ih _ _

theorem interfaceMethods (body : InterfaceBody Ty) :
    (resolve.interfaceMethods body).Returns (· = f.interfaceMethods body) :=
  .bind (hresolve.inherited _ _ _) fun _ h => .pure (by rw [h]; rfl)

end Resolver.Follows

namespace Comparer

theorem accept_judges {lo hi : Prop} (h : hi) : Judges lo hi (accept : Search σ Verdict) :=
  .pure (.yes h)

theorem reject_judges {lo hi : Prop} {why : Mismatch} (h : ¬ lo) :
    Judges lo hi (reject why : Search σ Verdict) :=
  .pure (.no h)

/-- `accept` or `reject` by a test `Judges` the test. -/
theorem test_judges (test : Bool) {why : Mismatch} :
    Judges (test = true) (test = true) (if test then accept else reject why : Search σ Verdict) := by
  cases test with
  | true => exact accept_judges rfl
  | false => exact reject_judges nofun

theorem same_judges (a e : Ty) {why : Mismatch} :
    Judges (a.same e = true) (a.same e = true)
      (if a == e then accept else reject why : Search σ Verdict) := by
  simp only [Ty.beq_eq_same]
  exact test_judges _

/-- `accept` or `reject` by a search `Judges` what the search lies `Between`. -/
theorem ite_judges {lo hi : Prop} {x : Search σ Bool} {why : Mismatch} (h : x.Returns (Between lo hi)) :
    Judges lo hi (do if ← x then accept else reject why) := by
  refine .bind h fun answer hanswer => ?_
  cases answer with
  | true => exact accept_judges (hanswer.2 rfl)
  | false => exact reject_judges fun hlo => nomatch hanswer.1 hlo

/-- `mapError` does not change what a search `Judges`. -/
theorem mapError_judges {lo hi : Prop} {x : Search σ Verdict} {reword : Mismatch → Mismatch}
    (h : Judges lo hi x) : Judges lo hi (do return (← x).mapError reword) := by
  refine .bind h fun verdict hverdict => .pure ?_
  cases verdict with
  | ok _ => exact hverdict
  | error _ => exact hverdict

/-- `every` of checks `Judges` the conjunction of what they do. -/
theorem every_judges {α : Type} {check : α → Search σ Verdict} {lo hi : α → Prop} {xs : List α}
    (h : ∀ x ∈ xs, Judges (lo x) (hi x) (check x)) :
    Judges (∀ x ∈ xs, lo x) (∀ x ∈ xs, hi x) (every check xs) := by
  induction xs with
  | nil => exact accept_judges (by simp)
  | cons x rest ih =>
    simp only [List.forall_mem_cons] at h ⊢
    rw [every]
    refine .bind h.1 fun verdict hverdict => ?_
    cases verdict with
    | ok _ => exact (ih h.2).mono And.right fun hhi => ⟨hverdict.2 rfl, hhi⟩
    | error why => exact reject_judges fun hlo => nomatch hverdict.1 hlo.1

variable {c : Comparer σ} {f : Unfolding} {assumed : Assumptions} {lo hi : Ty → Ty → Prop}
  (hcompare : ∀ a e, Judges (lo a e) (hi a e) (c.compare assumed a e))

section Parts

include hcompare

theorem holds_returns (a e : Ty) : (c.holds assumed a e).Returns (Between (lo a e) (hi a e)) :=
  .map (hcompare a e)

theorem element_returns (a e : Ty) :
    (c.element assumed a e).Returns (Between (Fits lo a e) (Fits hi a e)) := by
  unfold element
  simp only [Ty.beq_eq_same, Bool.or_eq_true]
  split
  · next h => exact .pure (.yes (by unfold Fits; tauto))
  · next h =>
    split
    · next hprim =>
      -- one of them is primitive, so they would have to be the same
      refine .pure (.no ?_)
      rintro (hsame | hnever | herror | ⟨ha, he, -⟩)
      · exact h (.inl (.inl hsame))
      · exact h (.inl (.inr hnever))
      · exact h (.inr herror)
      · simp [ha, he] at hprim
    · next hprim =>
      simp only [not_or, Bool.not_eq_true, Option.isSome_eq_false_iff, Option.isNone_iff_eq_none] at hprim
      refine (holds_returns hcompare a e).mono fun _ hanswer => hanswer.mono ?_ ?_
      · rintro (hsame | hnever | herror | ⟨-, -, hlo⟩)
        · exact absurd (.inl (.inl hsame)) h
        · exact absurd (.inl (.inr hnever)) h
        · exact absurd (.inr herror) h
        · exact hlo
      · intro hhi
        exact .inr (.inr (.inr ⟨hprim.1, hprim.2, hhi⟩))

theorem arguments_judges (actual expected : Ty) (args params : List Ty) :
    Judges (List.Forall₂ (Fits lo) args params) (List.Forall₂ (Fits hi) args params)
      (c.arguments assumed actual expected args params) := by
  simp only [List.forall₂_iff_zip]
  unfold arguments
  split
  · next hlength => exact reject_judges fun hlo => hlength hlo.1
  · next hlength =>
    have hlength := not_not.mp hlength
    -- the search looks for a position that does not fit
    refine .bind (.findM?_not fun p _ => element_returns hcompare p.1 p.2) fun bad hbad => ?_
    cases bad with
    | some p => exact reject_judges fun hlo => nomatch hbad.1 fun q hq => hlo.2 hq
    | none => exact accept_judges ⟨hlength, fun {a e} hq => hbad.2 rfl (a, e) hq⟩

theorem signature_returns (a e : Signature Ty) :
    (c.signature assumed a e).Returns (Between (SignatureFits lo a e) (SignatureFits hi a e)) := by
  simp only [SignatureFits, List.forall₂_iff_zip]
  unfold signature
  split
  · next hdiffer =>
    refine .pure (.no fun hlo => ?_)
    simp [hlo.1, hlo.2.1.1] at hdiffer
  · next hdiffer =>
    simp only [Bool.or_eq_true, decide_eq_true_eq, not_or, not_not, ne_eq] at hdiffer
    -- parameters are compared the other way round, and before the results
    refine .bind (.allM fun p _ => holds_returns hcompare p.2.type p.1.type) fun answer hanswer => ?_
    cases answer with
    | false => exact .pure (.no fun hlo => nomatch hanswer.1 fun q hq => hlo.2.1.2 hq)
    | true =>
      refine (holds_returns hcompare a.result e.result).mono fun _ hresult => hresult.mono ?_ ?_
      · exact fun hlo => hlo.2.2
      · exact fun hhi => ⟨hdiffer.1, ⟨hdiffer.2, fun {x y} hq => hanswer.2 rfl (x, y) hq⟩, hhi⟩

theorem fields_judges (a e : StructBody Ty) :
    Judges (FieldsFit lo a e) (FieldsFit hi a e) (c.fields assumed a e) := by
  refine every_judges fun field _ => ?_
  split
  · next hmissing =>
    refine reject_judges fun ⟨found, hfound, _⟩ => ?_
    rw [hmissing] at hfound
    exact nomatch hfound
  · next found hfound =>
    refine (mapError_judges (hcompare found.type field.type)).mono ?_ ?_
    · rintro ⟨found', hfound', hlo⟩
      rw [hfound] at hfound'
      exact Option.some.inj hfound' ▸ hlo
    · exact fun hhi => ⟨found, hfound, hhi⟩

theorem cases_judges (actual expected : Ty) (available required : List (VariantCase Ty)) :
    Judges (CasesFit lo available required) (CasesFit hi available required)
      (c.cases assumed actual expected available required) := by
  simp only [CasesFit, List.forall₂_iff_zip]
  unfold cases
  split
  · next hlength => exact reject_judges fun hlo => hlength hlo.1
  · next hlength =>
    refine (every_judges fun case _ => ?_).mono And.right fun hhi => ⟨not_not.mp hlength, hhi⟩
    split
    · next hmissing =>
      refine reject_judges fun ⟨found, hfound, _⟩ => ?_
      rw [hmissing] at hfound
      exact nomatch hfound
    · next found hfound =>
      split
      · next hparams =>
        refine reject_judges fun ⟨found', hfound', hlo⟩ => hparams ?_
        rw [hfound] at hfound'
        exact Option.some.inj hfound' ▸ hlo.1
      · next hparams =>
        refine (every_judges fun p _ => hcompare p.1.type p.2.type).mono ?_ ?_
        · rintro ⟨found', hfound', hlo⟩ p hp
          obtain rfl := Option.some.inj (hfound.symm.trans hfound')
          exact hlo.2 hp
        · exact fun hhi => ⟨found, hfound, not_not.mp hparams, fun {x y} hp => hhi (x, y) hp⟩

end Parts

variable (hresolve : c.resolve.Follows f)

section Types

include hcompare hresolve

theorem conforms_judges (available : List (Method Ty)) (body : InterfaceBody Ty) :
    Judges (Conforms lo available (f.interfaceMethods body))
      (Conforms hi available (f.interfaceMethods body)) (c.conforms assumed available body) := by
  refine .bind (hresolve.interfaceMethods body) ?_
  rintro _ rfl
  refine every_judges fun method _ => ite_judges (.anyM fun candidate _ => ?_)
  split
  · next hnames =>
    refine (signature_returns hcompare _ _).mono fun _ hanswer => hanswer.mono And.right ?_
    exact fun hhi => ⟨hnames, hhi⟩
  · next hnames => exact .pure (.no fun hlo => hnames hlo.1)

theorem structural_judges (a e : Ty) :
    Judges (Structural f lo a e) (Structural f hi a e) (c.structural assumed a e) := by
  -- the cases of the rules come in the order of the cases of the search
  unfold Structural structural
  split <;> try simp only [*]
  case h_1 => exact test_judges _
  case h_2 g _ =>
    cases g.constraint with
    | none => exact reject_judges (by simp)
    | some bound => simpa using hcompare bound e
  case h_3 => exact every_judges fun m _ => hcompare m e
  case h_4 => exact ite_judges (.anyM fun m _ => holds_returns hcompare a m)
  case h_5 => exact every_judges fun m _ => hcompare a m
  case h_6 => exact ite_judges (.anyM fun m _ => holds_returns hcompare m e)
  case h_7 => exact ite_judges (element_returns hcompare _ _)
  case h_8 as es _ _ =>
    simp only [List.forall₂_iff_zip]
    split
    · next hlength => exact reject_judges fun hlo => hlength hlo.1
    · next hlength =>
      refine (every_judges fun p _ => hcompare p.1 p.2).mono (fun hlo p hp => hlo.2 hp) ?_
      exact fun hhi => ⟨not_not.mp hlength, fun {x y} hp => hhi (x, y) hp⟩
  case h_9 => exact fields_judges hcompare _ _
  case h_10 => exact conforms_judges hcompare hresolve _ _
  case h_11 =>
    refine .bind (hresolve.interfaceMethods _) ?_
    rintro _ rfl
    exact conforms_judges hcompare hresolve _ _
  case h_13 =>
    split
    · next hdiffer =>
      refine reject_judges ?_
      rintro ⟨hvariant, hname, -⟩
      simp [hvariant, hname] at hdiffer
    · next hdiffer =>
      simp only [ne_eq, Bool.or_eq_true, decide_eq_true_eq, not_or, not_not] at hdiffer
      simpa [hdiffer.1, hdiffer.2] using arguments_judges hcompare a e _ _
  case h_14 => exact cases_judges hcompare _ _ _ _
  case h_15 => exact ite_judges (signature_returns hcompare _ _)
  case h_16 => exact ite_judges (signature_returns hcompare _ _)
  case h_17 => simpa using test_judges (a.text == e.text)

/-- `resolvedTypes` compares what two types stand for as `Resolved` says. -/
theorem resolvedTypes_judges (a e : Ty) :
    Judges (Resolved lo (f.declared a) (f.declared e)) (Resolved hi (f.declared a) (f.declared e))
      (c.resolvedTypes assumed a e) := by
  have hunnamed (x y : Ty) : Judges (x.same y ∨ lo x y) (x.same y ∨ hi x y)
      (resolvedTypes.unnamed c assumed a e x y) := by
    unfold resolvedTypes.unnamed
    split
    · next hsame => exact accept_judges (.inl (by simpa using hsame))
    · next hsame =>
      refine (mapError_judges (hcompare x y)).mono ?_ .inr
      rintro (h | h)
      · exact absurd (by simpa using h) hsame
      · exact h
  refine .bind (hresolve.declared a) fun (d, x) ha => .bind (hresolve.declared e) fun (d', y) he => ?_
  rw [← ha, ← he]
  unfold Resolved
  dsimp only
  split <;> try simp only [*]
  · split
    · split
      · next hdecl => exact reject_judges fun hlo => hdecl hlo.1
      · next hdecl => exact (same_judges x y).mono And.right fun hsame => ⟨not_not.mp hdecl, hsame⟩
    · exact hunnamed x y
  · exact same_judges x y
  · exact same_judges x y
  · exact hunnamed x y

end Types

variable {a e : Ty}

/-- Whether one of the special rules of a step is about two types. -/
def isSpecial (a e : Ty) : Bool :=
  a.same e || a.isNever || a.isError || e.isError || e.isAny || a.isNullable || e.isNullable ||
    e.reference?.any fun r => a.reference?.any (·.decl = r.decl) ||
      a.constructed?.any fun c => c.decl = some r.decl && c.args.length = r.args.length

/-- Whether two types are compared by what they stand for: one of them is named, and no special rule is about
them. -/
def byName (a e : Ty) : Bool :=
  !isSpecial a e && !(a.reference?.isNone && e.reference?.isNone)

theorem step_of_not_special (h : isSpecial a e = false) : c.step assumed a e = c.general assumed a e := by
  simp only [isSpecial, Bool.or_eq_false_iff] at h
  obtain ⟨⟨⟨⟨⟨⟨⟨hsame, hnever⟩, haerror⟩, heerror⟩, hany⟩, hanull⟩, henull⟩, hdecl⟩ := h
  unfold step
  simp only [Ty.beq_eq_same, hsame, hnever, haerror, heerror, hany, Bool.or_self, Bool.false_eq_true, if_false]
  unfold Ty.isNullable at hanull henull
  unfold Ty.reference? Ty.constructed? at hdecl
  split <;> simp_all

theorem rule_of_not_special (h : isSpecial a e = false) {R : Ty → Ty → Prop} :
    Rule f R a e ↔ General f R a e := by
  simp only [isSpecial, Bool.or_eq_false_iff] at h
  obtain ⟨⟨⟨⟨⟨⟨⟨hsame, hnever⟩, haerror⟩, heerror⟩, hany⟩, hanull⟩, henull⟩, hdecl⟩ := h
  unfold Rule Proper
  simp only [hsame, hnever, haerror, heerror, hany, Bool.false_eq_true, false_or]
  unfold Ty.isNullable at hanull henull
  unfold Ty.reference? Ty.constructed? at hdecl
  split <;> simp_all

theorem named_of_byName (h : byName a e = true) : (∃ r, a.shape = .ref r) ∨ ∃ r, e.shape = .ref r := by
  simp only [byName, Bool.and_eq_true, Bool.not_eq_true', Bool.and_eq_false_iff, Option.isNone_eq_false_iff,
    Option.isSome_iff_exists, Ty.reference?_eq_some] at h
  exact h.2

theorem step_of_byName (h : byName a e = true) : c.step assumed a e = c.named assumed a e := by
  simp only [byName, Bool.and_eq_true, Bool.not_eq_true'] at h
  rw [step_of_not_special h.1, general, h.2, if_neg Bool.false_ne_true]

theorem rule_of_byName (h : byName a e = true) {R : Ty → Ty → Prop} :
    Rule f R a e ↔ Resolved R (f.declared a) (f.declared e) := by
  simp only [byName, Bool.and_eq_true, Bool.not_eq_true'] at h
  rw [rule_of_not_special h.1, General, h.2, if_neg Bool.false_ne_true]

section Parts

include hcompare

/-- `step` on a pair that `isSpecial` accepts exactly what a `Rule` justifies with premises that are accepted. -/
theorem step_judges_of_special (h : isSpecial a e = true) :
    Judges (Rule f lo a e) (Rule f hi a e) (c.step assumed a e) := by
  by_cases hsame : a.same e = true
  · unfold step
    rw [Ty.beq_eq_same, if_pos hsame]
    exact accept_judges (.inl hsame)
  by_cases htrivial : (a.isNever || a.isError || e.isError || e.isAny) = true
  · unfold step
    rw [Ty.beq_eq_same, if_neg hsame, if_pos htrivial]
    simp only [Bool.or_eq_true] at htrivial
    exact accept_judges (by unfold Rule; tauto)
  -- none of the rules that always hold applies
  have hrule (R : Ty → Ty → Prop) : Rule f R a e ↔ Proper f R a e := by
    simp only [Bool.or_eq_true] at htrivial
    unfold Rule
    tauto
  rw [hrule, hrule]
  unfold step Proper
  rw [Ty.beq_eq_same, if_neg hsame, if_neg htrivial]
  simp only [isSpecial, hsame, Ty.isNullable, Ty.reference?, Ty.constructed?] at h
  -- the shapes that one of the special rules is about
  split <;> try simp only [*, -hcompare] at h ⊢
  case h_1 => exact accept_judges trivial
  case h_2 => exact hcompare _ _
  case h_3 => exact hcompare _ _
  case h_4 => exact reject_judges id
  case h_5 =>
    split
    · exact arguments_judges hcompare a e _ _
    · simp_all
  case h_6 =>
    split
    · exact arguments_judges hcompare a e _ _
    · simp_all
  case h_7 => grind

include hresolve

/-- `step` on a pair that is not compared `byName` accepts exactly what a `Rule` justifies with premises that are
accepted, whatever is assumed. -/
theorem step_judges_of_not_byName (h : byName a e = false) :
    Judges (Rule f lo a e) (Rule f hi a e) (c.step assumed a e) := by
  cases hspecial : isSpecial a e with
  | true => exact step_judges_of_special hcompare hspecial
  | false =>
    have hunnamed : (a.reference?.isNone && e.reference?.isNone) = true := by simpa [byName, hspecial] using h
    rw [step_of_not_special hspecial, rule_of_not_special hspecial, rule_of_not_special hspecial]
    unfold general General
    rw [if_pos hunnamed, if_pos hunnamed, if_pos hunnamed]
    exact structural_judges hcompare hresolve a e

end Parts

variable (hassume : ∀ x y, Judges (lo x y) (hi x y) (c.compare ((a.text, e.text) :: assumed) x y))

include hresolve hassume

/-- `named` accepts a pair that is assumed, and else compares what the types stand for as `Resolved` says. -/
theorem named_judges :
    Judges (Resolved lo (f.declared a) (f.declared e))
      (assumed.contains (a.text, e.text) ∨ Resolved hi (f.declared a) (f.declared e))
      (c.named assumed a e) := by
  unfold named
  dsimp only
  split
  · next hassumed => exact accept_judges (.inl hassumed)
  · exact (resolvedTypes_judges hassume hresolve a e).mono id .inr

include hcompare

/-- One step accepts what a rule with premises in `lo` justifies, and accepts only pairs that are assumed
or that a rule with premises in `hi` justifies. -/
theorem step_judges :
    Judges (Rule f lo a e) (assumed.contains (a.text, e.text) ∨ Rule f hi a e) (c.step assumed a e) := by
  cases hname : byName a e with
  | true =>
    rw [step_of_byName hname, rule_of_byName hname, rule_of_byName hname]
    exact named_judges hresolve hassume
  | false => exact (step_judges_of_not_byName hcompare hresolve hname).mono id .inr

end Comparer

end Ascribe
