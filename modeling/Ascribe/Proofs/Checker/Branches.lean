import Ascribe.Proofs.Checker.Lookup

/-!
# The common type of branches on a checker

Every branch can be assigned to the common type that a checker finds for the branches
(`Checker.commonType_above`), provided that the types which meet on the way can be merged. Constructors often
cannot, so the condition is not idle: `Option.Some(1u8)` and `Option.Some(2u32)` have the common type `Option<u32>`,
and the former is not assignable to it (`commonType_not_above`).
-/

namespace Ascribe

open Assignability

/-- `commonType` is above its branches: whatever an idle checker has been asked before, every branch is assignable to
the common type that it finds for the branches, then and after any further questions. None of the branches may be an
error, they are nullable at most once, and what they contribute must be types that can be merged, by what the named
types on the way are found to stand for. -/
theorem Checker.commonType_above {p : Tree} {c c₁ later c₂ : Checker} (hidle : c.memo.Idle)
    (hdepth : 0 < c.settings.maxReferenceDepth) {types : List Ty} (herrors : ∀ t ∈ types, t.isError = false)
    (hbuilt : ∀ t ∈ types, t.isBuilt = true) {t : Ty}
    (hrun : ((firmFor p c.settings).commonType types).run c = .ok (t, c₁)) (hlater : Asked c₁ later)
    {x : Ty} (hx : x ∈ types) {v : Verdict}
    (hcompare : ((firmFor p c.settings).compare [] x t).run later = .ok (v, c₂))
    (hmerge : Mergeable c₂.kept (types.filterMap branchCandidate?)) :
    (queries p >>= (·.commonType types)).run c = .ok (t, c₁) ∧
      (compare p x t).run later = .ok (.ok (), c₂) := by
  have hready : c.Ready := ⟨hidle, hdepth⟩
  have hreplays := c₂.lookups_replays (p := p) (questionDepth p c.settings)
  obtain ⟨hgrows, hmerged⟩ := hreplays.commonType types c t c₁ hready hrun
  have hgrowsLater := hgrows.trans hlater.grows
  obtain ⟨hgrows₂, hcompared⟩ := hreplays.compare [] x t later v c₂ (hready.grows hgrowsLater) hcompare
  have habove : Accepted (refuseNamesakes []) c₂.lookup x t :=
    (c₂.lookups_sound _).commonType c₂.accepted_closed hbuilt herrors hmerge c t c
      (hmerged (hlater.grows.trans hgrows₂) c) x hx
  have hholds : v.holds = true := by
    have hwithin := habove (questionDepth p c.settings) []
    rw [refuseNamesakes_nil, compareWatched_pure] at hwithin
    refine hwithin c v c ?_
    rw [← lookups_compare]
    exact hcompared (.refl c₂) c
  obtain rfl : v = .ok () := by
    cases v with
    | error why => exact nomatch hholds
    | ok => rfl
  refine ⟨(answers_refines_firm _).commonType types c t c₁ hrun, ?_⟩
  have hanswers := (answers_refines_firm _).compare [] x t later (.ok ()) c₂ hcompare
  rw [← hgrowsLater.settings] at hanswers
  exact hanswers

/-- A generic variant `type Option<T> = variant { Some(value: T), None }` with the expressions `Option.Some(1u8)` and
`Option.Some(2u32)`, and two named types `type A = u8` and `type B = i8`. -/
def options : Tree where
  nodes := #[
    { form := .genericParam "T" none, parent := some 6 },
    { form := .reference { name := "T", target := some 0 } [], parent := some 2 },
    { form := .field "value" 1, parent := some 3 },
    { form := .ctorDecl "Some" [2], parent := some 5 },
    { form := .ctorDecl "None" [], parent := some 5 },
    { form := .variantType [3, 4], parent := some 6 },
    { form := .typeDecl { name := "Option", generics := [0], definition := 5 } },
    { form := .name { name := "Option", target := some 6 }, parent := some 8 },
    { form := .member { base := 7, name := "Some" }, parent := some 10 },
    { form := .int "1u8", parent := some 10 },
    { form := .call { callee := 8, args := [9] } },
    { form := .name { name := "Option", target := some 6 }, parent := some 12 },
    { form := .member { base := 11, name := "Some" }, parent := some 14 },
    { form := .int "2u32", parent := some 14 },
    { form := .call { callee := 12, args := [13] } },
    { form := .primitive .u8, parent := some 16 },
    { form := .typeDecl { name := "A", definition := 15 } },
    { form := .primitive .i8, parent := some 18 },
    { form := .typeDecl { name := "B", definition := 17 } }]

namespace options

/-- What `Option` stands for at an argument. -/
def variant (arg : Ty) : Ty :=
  .of (.variant [{ name := "Some", params := [{ name := "value", type := arg }] }, { name := "None" }])

/-- A constructor of `Option` at an argument. -/
def constructor (name : String) (arg : Ty) : Ty :=
  .of (.constructed {
    decl := some 6
    variantName := "Option"
    variant := variant arg
    name
    args := [arg] })

/-- The branches `{ n: A, value: Option.Some<{ x: u8 }> }`, `{ value: Option.None<never>, n: u32 }` and `null`. -/
def branches : List Ty :=
  let point := Ty.struct [{ name := "x", type := .prim .u8 }] false
  [.struct
      [{ name := "n", type := .reference 16 "A" [] }, { name := "value", type := constructor "Some" point }] false,
    .struct [{ name := "value", type := constructor "None" .never }, { name := "n", type := .prim .u32 }] false,
    .null]

/-- Merge the branches, once the type of `Option.Some(1u8)` has been asked for. -/
def merge : Infer Ty := do
  (Query.typeOf 10).ask options
  (Checker.firmFor options {}).commonType branches

/-- What the branches have in common. -/
def merged : Ty :=
  (merge.run' {}).toOption.getD .never

/-- The branches are merged field by field. All of them are assignable to what they have in common, also after the
type of `Option.Some(2u32)` has been asked for. -/
theorem merged_above :
    merged.text = "struct {n: u32, value: Option<struct {x: u8}>}?" ∧
      ∀ x ∈ branches, ∃ c c₁ later c₂, ((Query.typeOf 10).ask options).run {} = .ok ((), c) ∧
        ((Query.typeOf 14).ask options).run c₁ = .ok ((), later) ∧
        (Checker.queries options >>= (·.commonType branches)).run c = .ok (merged, c₁) ∧
        (Checker.compare options x merged).run later = .ok (.ok (), c₂) := by
  refine ⟨by decide +kernel, fun x hx => ?_⟩
  let session (x : Ty) : Infer Bool := do
    let t ← merge
    (Query.typeOf 14).ask options
    let _ ← (Checker.firmFor options {}).compare [] x t
    return ((← get).resolved.get? (16, "")).any (·.primitive?.isSome)
  have hsession : ∀ x ∈ branches, (((session x).run {}).toOption.any fun found => found.1) = true := by
    decide +kernel
  obtain ⟨_, c₃, hrun, hplain⟩ := Search.exists_run_of_any (P := id) (hsession x hx)
  obtain ⟨t, c₁, hmerge, hrun⟩ := Search.run_bind_eq_ok.mp hrun
  obtain ⟨_, later, hask', hrun⟩ := Search.run_bind_eq_ok.mp hrun
  obtain ⟨v, c₂, hcompare, hrun⟩ := Search.run_bind_eq_ok.mp hrun
  obtain ⟨rfl, rfl⟩ := Prod.mk.inj (Except.ok.inj hrun)
  obtain rfl : merged = t := by rw [merged, StateT.run'_eq, hmerge]; rfl
  obtain ⟨_, c, hask, hcommon⟩ := Search.run_bind_eq_ok.mp hmerge
  -- the only name in the branches stands for a primitive
  obtain ⟨u, hu, hprim⟩ := (Option.any_eq_true _ _).mp hplain
  have hplain (r : Reference Ty) (hr : (r.decl == 16 && r.args.isEmpty) = true) :
      ∃ p, (c₂.kept r).primitive? = some p := by
    obtain ⟨decl, name, args⟩ := r
    obtain ⟨rfl, rfl⟩ : decl = 16 ∧ args = [] := by simpa using hr
    have hkept : c₂.kept ⟨16, name, []⟩ = u := congrArg (Option.getD · _) hu
    rw [hkept]
    exact Option.isSome_iff_exists.mp hprim
  have hfree : ∀ x ∈ branches.filterMap branchCandidate?,
      x.everywhere (Ty.mergesFreely (fun _ => 1) fun r => r.decl == 16 && r.args.isEmpty) = true := by
    decide +kernel
  have hgrows := (Query.typeOf 10).ask_growing options {} () c hask
  have hidle : c.memo.Idle := Memo.Idle.empty.grows hgrows.memo
  have hsettings : c.settings = {} := hgrows.settings
  have hdepth : 0 < c.settings.maxReferenceDepth := by rw [hsettings]; decide
  rw [← hsettings] at hcommon hcompare
  refine ⟨c, c₁, later, c₂, hask, hask', ?_⟩
  exact Checker.commonType_above hidle hdepth (by decide +kernel) (by decide +kernel) hcommon
    (.step .none options (.typeOf 14) hask') hx hcompare (.of_everywhere hplain hfree)

end options

/-- A generic variant `type Handler<T> = variant { On(run: fn(T), arg: T), Off }`, the expressions `Handler.On("", "")`
and `Handler.Off`, and a declaration `Idle` of the type of the latter. -/
def handlers : Tree where
  nodes := #[
    { form := .genericParam "T" none, parent := some 10 },
    { form := .reference { name := "T", target := some 0 } [], parent := some 2 },
    { form := .param { name := "x", type := some 1 }, parent := some 3 },
    { form := .functionType [2] none .plain, parent := some 4 },
    { form := .field "run" 3, parent := some 7 },
    { form := .reference { name := "T", target := some 0 } [], parent := some 6 },
    { form := .field "arg" 5, parent := some 7 },
    { form := .ctorDecl "On" [4, 6], parent := some 9 },
    { form := .ctorDecl "Off" [], parent := some 9 },
    { form := .variantType [7, 8], parent := some 10 },
    { form := .typeDecl { name := "Handler", generics := [0], definition := 9 } },
    { form := .name { name := "Handler", target := some 10 }, parent := some 12 },
    { form := .member { base := 11, name := "Off" }, parent := some 13 },
    { form := .typeDecl { name := "Idle", definition := 12 } },
    { form := .name { name := "Handler", target := some 10 }, parent := some 15 },
    { form := .member { base := 14, name := "On" }, parent := some 17 },
    { form := .string "", parent := some 17 },
    { form := .call { callee := 15, args := [16, 16] } }]

/-- The text of the common type of branches on a new checker, and whether each of them is assignable to it. -/
def commonVerdicts (p : Tree) (branches : Infer (List Ty)) : Option (String × List Bool) :=
  let verdicts : Infer (String × List Bool) := do
    let types ← branches
    let t ← (← Checker.queries p).commonType types
    return (t.text, ← types.mapM fun x => Verdict.holds <$> Checker.compare p x t)
  (verdicts.run' {}).toOption

/-- `commonVerdicts` where a branch is not assignable to what the branches have in common: constructors with different
numbers in one place, whether the numbers are written out or named, a constructor that is not applied, which lacks the
argument of the others, a constructor that is named, and a type that is nullable twice over. -/
theorem commonType_not_above :
    commonVerdicts options ([10, 14].mapM (Checker.typeOf options)) = some ("Option<u32>", [false, true]) ∧
      commonVerdicts options (pure
        [options.constructor "Some" (.reference 16 "A" []), options.constructor "Some" (.reference 18 "B" [])]) =
        some ("Option<i16>", [false, false]) ∧
      commonVerdicts options ([8, 10].mapM (Checker.typeOf options)) = some ("Option<u8>", [false, true]) ∧
      commonVerdicts handlers (do return [.reference 13 "Idle" [], ← Checker.typeOf handlers 17]) =
        some ("Handler<string>", [false, true]) ∧
      commonVerdicts options (pure [.of (.nullable (.nullable (.prim .u8))), .null]) =
        some ("u8?", [false, true]) := by
  decide +kernel

end Ascribe
