import Ascribe.Proofs.Assignability.Aliases
import Ascribe.Proofs.Checker.Unfolding

/-!
# Aliases

An alias `type B = A` compares as `A` does, in both directions and with every type that does not tell the two
apart (`AskedWithin.alias_transparent`). Some types do: `A` itself if it is a class, since classes are told apart
by the declarations they are named by; named types with a wrong number of arguments; and constructors that were
not made for `A`. Comparison also takes types of one text for each other while it assumes a pair, so an alias
may be told apart by another declaration of the same name (`alias_told_apart`).
-/

namespace Ascribe

variable {p : Tree} {known : Reference Ty → Bool} {s : Settings}

/-- An alias and the declared type it is defined as `Coincide` in `unfolding`. -/
theorem unfolding_coincide (hkeys : KeysAgree p known s) {decl target : NodeId} {d d' : TypeDeclForm}
    {n : NameForm} {t : Ty} (hdecl : p.form decl = .ok (.typeDecl d))
    (hdefinition : p.form d.definition = .ok (.reference n [])) (hn : n.target = some target)
    (htarget : p.form target = .ok (.typeDecl d')) (h : StandsFor p known s ⟨decl, d.name, []⟩ t)
    (herror : t.isError = false) : (unfolding p known s).Coincide decl target t where
  ends := unfolding_ends
  unnamed := h.reference?_eq_none
  first _ := unfolding_eq_of_standsFor hkeys h rfl
  second _ := unfolding_eq_of_standsFor hkeys (h.of_alias hdecl hdefinition hn htarget herror) rfl

/-- An alias is transparent: whatever has been asked before, the alias `decl`, which is defined as the declared type
`target` and stands for `t`, is assignable to the types that `target` is assignable to, and the types that are
assignable to it are those that are assignable to `target`. The other type must not tell the two apart. Neither may
texts: the comparison with either of the two ends without meeting a pair of types that looks like the comparison with
the other one and is not. -/
theorem AskedWithin.alias_transparent (hkeys : KeysAgree p known s) {c : Checker}
    (hasked : AskedWithin p known { settings := s } c) {decl target : NodeId} {d d' : TypeDeclForm}
    {n : NameForm} {t e : Ty} (hdecl : p.form decl = .ok (.typeDecl d))
    (hdefinition : p.form d.definition = .ok (.reference n [])) (hn : n.target = some target)
    (htarget : p.form target = .ok (.typeDecl d')) (hstands : StandsFor p known s ⟨decl, d.name, []⟩ t)
    (herror : t.isError = false) (he : Ty.Impartial decl target t e) {b a : Ty}
    (hb : b = .reference decl d.name []) (ha : a = .reference target d'.name [])
    (hfrom : EndsApart p known s b e a e.core ∧ EndsApart p known s a e b e.core)
    (hto : EndsApart p known s e b e a ∧ EndsApart p known s e a e b) :
    (c.Accepts p b e ↔ c.Accepts p a e) ∧ (c.Accepts p e b ↔ c.Accepts p e a) := by
  subst hb ha
  have hresolver := Checker.resolver_follows hkeys
  have hcoincide := unfolding_coincide hkeys hdecl hdefinition hn htarget hstands herror
  have haccepted {x y : Ty} := hasked.acceptedUnder hkeys (a := x) (e := y)
  refine ⟨⟨fun h => ?_, fun h => ?_⟩, ⟨fun h => ?_, fun h => ?_⟩⟩
  · have h' := haccepted hfrom.1.ends h
    exact hfrom.2.accepts hkeys hasked (.from_impartial hresolver unfolding_respects hcoincide he h')
  · have h' := haccepted hfrom.2.ends h
    exact hfrom.1.accepts hkeys hasked (.from_impartial hresolver unfolding_respects hcoincide.swap he.swap h')
  · have h' := haccepted hto.1.ends h
    exact hto.2.accepts hkeys hasked (.to_impartial hresolver unfolding_respects hcoincide he h')
  · have h' := haccepted hto.2.ends h
    exact hto.1.accepts hkeys hasked (.to_impartial hresolver unfolding_respects hcoincide.swap he.swap h')

/-- A linked list `type A = struct { value: u8, next: A? }` and its alias `type B = A`, beside another list
`type C = struct { next: C?, value: u16 }`. -/
def lists : Tree where
  nodes := #[
    { form := .primitive .u8, parent := some 1 },
    { form := .field "value" 0, parent := some 5 },
    { form := .reference { name := "A", target := some 6 } [], parent := some 3 },
    { form := .nullableType 2, parent := some 4 },
    { form := .field "next" 3, parent := some 5 },
    { form := .structType [1, 4], parent := some 6 },
    { form := .typeDecl { name := "A", definition := 5 } },
    { form := .reference { name := "A", target := some 6 } [], parent := some 8 },
    { form := .typeDecl { name := "B", definition := 7 } },
    { form := .reference { name := "C", target := some 15 } [], parent := some 10 },
    { form := .nullableType 9, parent := some 11 },
    { form := .field "next" 10, parent := some 14 },
    { form := .primitive .u16, parent := some 13 },
    { form := .field "value" 12, parent := some 14 },
    { form := .structType [11, 13], parent := some 15 },
    { form := .typeDecl { name := "C", definition := 14 } }]

/-- Once the type of the node that defines `C` has been asked for, both `A` and its alias are assignable to `C`, and
`C` to neither. -/
theorem lists_alias :
    ∃ c, ((Query.typeOf 14).ask lists).run {} = .ok ((), c) ∧
      (c.Accepts lists (.reference 8 "B" []) (.reference 15 "C" []) ↔
        c.Accepts lists (.reference 6 "A" []) (.reference 15 "C" [])) ∧
      (c.Accepts lists (.reference 15 "C" []) (.reference 8 "B" []) ↔
        c.Accepts lists (.reference 15 "C" []) (.reference 6 "A" [])) ∧
      c.Accepts lists (.reference 6 "A" []) (.reference 15 "C" []) ∧
      ¬ c.Accepts lists (.reference 15 "C" []) (.reference 6 "A" []) := by
  let known := plainNames lists
  have hkeys : KeysAgree lists known {} := keysAgree_plainNames lists {}
  obtain ⟨_, c, hrun, -⟩ := Search.exists_run_of_any (s := {}) (P := fun _ => true)
    (x := (Query.typeOf 14).askOf lists (Checker.guardedFor lists known {})) (by decide +kernel)
  have hasked : AskedWithin lists known {} c := .step .none (.typeOf 14) hrun
  obtain ⟨t, _, hstands, herror⟩ := Search.exists_run_of_any (s := {}) (P := fun t => !t.isError)
    (x := (Checker.directFor lists known {}).resolve ⟨8, "B", []⟩) (by decide +kernel)
  have hdecl : lists.form 8 = .ok (.typeDecl { name := "B", definition := 7 }) := rfl
  have hdefinition : lists.form 7 = .ok (.reference { name := "A", target := some 6 } []) := rfl
  have htarget : lists.form 6 = .ok (.typeDecl { name := "A", definition := 5 }) := rfl
  obtain ⟨hfrom, hto⟩ := hasked.alias_transparent hkeys (e := .reference 15 "C" []) hdecl hdefinition rfl htarget
    (Checker.standsFor_of_run hstands) (by simpa using herror) (fun h => absurd h (by decide)) rfl rfl
    ⟨.of_runs (by decide +kernel) (by decide +kernel), .of_runs (by decide +kernel) (by decide +kernel)⟩
    ⟨.of_runs (by decide +kernel) (by decide +kernel), .of_runs (by decide +kernel) (by decide +kernel)⟩
  refine ⟨c, Query.run_ask_of_guarded hrun, hfrom, hto, ?_, ?_⟩
  · obtain ⟨v, _, hdirect, hv⟩ := Search.exists_run_of_any (s := {}) (P := Verdict.holds)
      (x := (Checker.directFor lists known {}).compare [] (.reference 6 "A" []) (.reference 15 "C" []))
      (by decide +kernel)
    exact (hasked.accepts_iff hkeys hdirect).mpr hv
  · obtain ⟨v, _, hdirect, hv⟩ := Search.exists_run_of_any (s := {}) (P := fun v => !Verdict.holds v)
      (x := (Checker.directFor lists known {}).compare [] (.reference 15 "C" []) (.reference 6 "A" []))
      (by decide +kernel)
    rw [hasked.accepts_iff hkeys hdirect]
    simpa using hv

/-- A class `type A = class {}` and its alias `type B = A`. -/
def classAlias : Tree where
  nodes := #[
    { form := .classType {}, parent := some 1 },
    { form := .typeDecl { name := "A", definition := 0 } },
    { form := .reference { name := "A", target := some 1 } [], parent := some 3 },
    { form := .typeDecl { name := "B", definition := 2 } }]

/-- Two declarations of one name, `type A = struct {}` and `type A = struct { next: A }`, where the second is defined
by the first; an alias `type B = A` of the second, and `type C = struct { next: C }`. -/
def namesakes : Tree where
  nodes := #[
    { form := .structType [], parent := some 1 },
    { form := .typeDecl { name := "A", definition := 0 } },
    { form := .reference { name := "A", target := some 1 } [], parent := some 3 },
    { form := .field "next" 2, parent := some 4 },
    { form := .structType [3], parent := some 5 },
    { form := .typeDecl { name := "A", definition := 4 } },
    { form := .reference { name := "A", target := some 5 } [], parent := some 7 },
    { form := .typeDecl { name := "B", definition := 6 } },
    { form := .reference { name := "C", target := some 11 } [], parent := some 9 },
    { form := .field "next" 8, parent := some 10 },
    { form := .structType [9], parent := some 11 },
    { form := .typeDecl { name := "C", definition := 10 } }]

/-- Whether a new checker finds that one type is assignable to another. -/
def acceptedOnNew (p : Tree) (a e : Ty) : Option Bool :=
  ((Verdict.holds <$> Checker.compare p a e).run' {}).toOption

/-- A constructor that claims to belong to the declaration `A` of `lists`, which is no variant. -/
def strayConstructor : Ty :=
  .of (.constructed { decl := some 6, variantName := "A", variant := .string, name := "X" })

/-- `acceptedOnNew` tells an alias of a class from the class, either way. A named type with an argument too many accepts
the alias of the declaration it names and not the declaration, a stray constructor is accepted for the declaration it
claims and not for the alias, and an alias is told apart from one of two declarations that have the same name. -/
theorem alias_told_apart :
    acceptedOnNew classAlias (.reference 1 "A" []) (.reference 1 "A" []) = some true ∧
      acceptedOnNew classAlias (.reference 3 "B" []) (.reference 1 "A" []) = some false ∧
      acceptedOnNew classAlias (.reference 1 "A" []) (.reference 3 "B" []) = some false ∧
      acceptedOnNew lists (.reference 6 "A" []) (.reference 6 "A" [.string]) = some false ∧
      acceptedOnNew lists (.reference 8 "B" []) (.reference 6 "A" [.string]) = some true ∧
      acceptedOnNew lists strayConstructor (.reference 6 "A" []) = some true ∧
      acceptedOnNew lists strayConstructor (.reference 8 "B" []) = some false ∧
      acceptedOnNew namesakes (.reference 5 "A" []) (.reference 11 "C" []) = some true ∧
      acceptedOnNew namesakes (.reference 7 "B" []) (.reference 11 "C" []) = some false := by
  decide +kernel

end Ascribe
