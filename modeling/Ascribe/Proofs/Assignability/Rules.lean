import Mathlib.Data.List.Forall2
import Mathlib.Order.ConditionallyCompleteLattice.Basic
import Mathlib.Order.FixedPoints
import Ascribe.Assignability.Compare
import Ascribe.Proofs.Ty.Erasure

/-!
# The rules of assignability

The rules of a comparison as rules of a relation. `Assignability.Rule f R a e` says that `a` is
assignable to `e` by one rule whose premises are in `R`: the rules are those of `Comparer.step`, with
every comparison of parts replaced by membership in `R` and without any assumption. Named types are
unfolded by a fixed function `f`.

More premises never take a conclusion away (`Rule.mono`), so there is a greatest relation each of whose
pairs is justified by a rule with premises in the relation. It is `Assignable f`, and it is how recursive
types compare: a pair is assignable unless some finite chain of rules refutes it.
-/

namespace Ascribe

/-- The body of an interface type. -/
def Ty.interface? (t : Ty) : Option (InterfaceBody Ty) :=
  match t.shape with
  | .interface body => some body
  | _ => none

theorem Ty.reference?_eq_some {t : Ty} {r : Reference Ty} : t.reference? = some r ↔ t.shape = .ref r := by
  unfold reference?
  cases t.shape <;> simp

theorem Ty.reference?_eq_none_iff {t : Ty} : t.reference? = none ↔ ∀ r, t.shape ≠ .ref r := by
  rw [Option.eq_none_iff_forall_ne_some]
  exact forall_congr' fun r => not_congr reference?_eq_some

theorem Ty.reference?_eq_none_of_isError {t : Ty} (h : t.isError = true) : t.reference? = none := by
  rw [reference?_eq_none_iff]
  intro r hshape
  simp [isError, problem?, hshape] at h

theorem Ty.primitive?_eq_some {t : Ty} {p : Primitive} : t.primitive? = some p ↔ t.shape = .prim p := by
  unfold primitive?
  cases t.shape <;> simp

theorem Ty.structBody?_eq_some {t : Ty} {body : StructBody Ty} :
    t.structBody? = some body ↔ t.shape = .struct body := by
  unfold structBody?
  cases t.shape <;> simp

theorem Ty.constructed?_eq_some {t : Ty} {c : Constructed Ty} :
    t.constructed? = some c ↔ t.shape = .constructed c := by
  unfold constructed?
  cases t.shape <;> simp

theorem Ty.signature?_eq_some {t : Ty} {s : Signature Ty} : t.signature? = some s ↔ t.shape = .fn s := by
  unfold signature?
  cases t.shape <;> simp

theorem Ty.isError_of_isPlaceholder {t : Ty} (h : t.isPlaceholder = true) : t.isError = true := by
  obtain ⟨problem, hproblem, -⟩ := Option.any_eq_true _ _ |>.mp h
  rw [isError, hproblem]
  rfl

/-- A fixed answer to what each named type stands for. -/
abbrev Unfolding := Reference Ty → Ty

namespace Unfolding

variable (f : Unfolding)

/-- Follow a chain of aliases for some steps, noting the declaration that named the last type. -/
def follow : Nat → Option NodeId → Ty → Option NodeId × Ty
  | 0, decl, t => (decl, t)
  | steps + 1, decl, t =>
    match t.reference? with
    | none => (decl, t)
    | some r => if f r == t then (some r.decl, t) else follow steps (some r.decl) (f r)

/-- What a type stands for, and the declaration that named it. -/
def declared (t : Ty) : Option NodeId × Ty :=
  f.follow maxAliasChain none t

/-- The methods of the super-interfaces that are still pending, the next one first. -/
def inherited : Nat → List Ty → List Ty → List (Method Ty)
  | 0, _, _ => []
  | visits + 1, seen, pending =>
    match pending.dropWhile seen.contains with
    | [] => []
    | t :: rest =>
      match (f.declared t).2.interface? with
      | some body =>
        body.methods ++ inherited visits (t :: seen) (body.supers.reverse ++ rest)
      | none => inherited visits (t :: seen) rest

/-- The methods of an interface, its own first and then those it inherits. -/
def interfaceMethods (body : InterfaceBody Ty) : List (Method Ty) :=
  body.methods ++ f.inherited (maxAliasChain + 1) [] body.supers.reverse

end Unfolding

namespace Assignability

variable (f : Unfolding) (R : Ty → Ty → Prop)

/-- Elements and generic arguments are the same if either is primitive; `never` fills any place. -/
def Fits (actual expected : Ty) : Prop :=
  actual.same expected ∨ actual.isNever ∨ expected.isError ∨
    (actual.primitive? = none ∧ expected.primitive? = none ∧ R actual expected)

/-- Parameters are related the other way round, results the same way round. -/
def SignatureFits (actual expected : Signature Ty) : Prop :=
  actual.kind = expected.kind ∧
    List.Forall₂ (fun a e => R e.type a.type) actual.params expected.params ∧
    R actual.result expected.result

/-- Every required method has an available one that shares a name and has a fitting signature. -/
def Conforms (available required : List (Method Ty)) : Prop :=
  ∀ method ∈ required, ∃ candidate ∈ available,
    candidate.names.overlaps method.names ∧ SignatureFits R candidate.signature method.signature

/-- Every expected field has a field of the same name at a related type. -/
def FieldsFit (actual expected : StructBody Ty) : Prop :=
  ∀ field ∈ expected.fields, ∃ found, actual.field? field.name = some found ∧ R found.type field.type

/-- There are as many cases, and every required one has a case of the same name with related
parameters. -/
def CasesFit (available required : List (VariantCase Ty)) : Prop :=
  available.length = required.length ∧
    ∀ case ∈ required, ∃ found, available.find? (·.name == case.name) = some found ∧
      List.Forall₂ (fun a e => R a.type e.type) found.params case.params

/-- The rules for two types that are not named. -/
def Structural (actual expected : Ty) : Prop :=
  match actual.shape, expected.shape with
  | .prim a, .prim e => a.coercesTo e
  | .generic g, _ => ∃ bound, g.constraint = some bound ∧ R bound expected
  | .union members, _ => ∀ m ∈ members, R m expected
  | _, .union members => ∃ m ∈ members, R actual m
  | _, .join members => ∀ m ∈ members, R actual m
  | .join members, _ => ∃ m ∈ members, R m expected
  | .array a, .array e => Fits R a e
  | .tuple as, .tuple es => List.Forall₂ R as es
  | .struct a, .struct e => FieldsFit R a e
  | .cls a, .interface e =>
    Conforms R (a.methods.filter fun m => !m.isStatic) (f.interfaceMethods e)
  | .interface a, .interface e => Conforms R (f.interfaceMethods a) (f.interfaceMethods e)
  | .constructed a, .variant _ => R a.variant expected
  | .constructed a, .constructed e =>
    a.variantName = e.variantName ∧ a.name = e.name ∧ List.Forall₂ (Fits R) a.args e.args
  | .variant as, .variant es => CasesFit R as es
  | .fn a, .fn e | .coroutine a, .coroutine e => SignatureFits R a e
  | _, _ => actual.text = expected.text

/-- The rules for what two types stand for, with the declarations that named them. -/
def Resolved (actual expected : Option NodeId × Ty) : Prop :=
  match actual.2.shape, expected.2.shape with
  | .cls _, .cls _ =>
    if actual.1.isSome && expected.1.isSome then
      actual.1 = expected.1 ∧ actual.2.same expected.2
    else actual.2.same expected.2 ∨ R actual.2 expected.2
  | .ref _, _ | _, .ref _ => actual.2.same expected.2
  | _, _ => actual.2.same expected.2 ∨ R actual.2 expected.2

/-- The rules for types none of the special rules of `Rule` is about. -/
def General (actual expected : Ty) : Prop :=
  if actual.reference?.isNone && expected.reference?.isNone then Structural f R actual expected
  else Resolved R (f.declared actual) (f.declared expected)

/-- The rules for types that are not the same, apart from those that always hold. -/
def Proper (actual expected : Ty) : Prop :=
  match actual.shape, expected.shape with
  | .prim .null, .nullable _ => True
  | .nullable a, .nullable e => R a e
  | _, .nullable e => R actual e
  | .nullable _, _ => False
  | .ref a, .ref e =>
    if a.decl = e.decl then List.Forall₂ (Fits R) a.args e.args else General f R actual expected
  | .constructed a, .ref e =>
    if a.decl = some e.decl && a.args.length = e.args.length then
      List.Forall₂ (Fits R) a.args e.args
    else General f R actual expected
  | _, _ => General f R actual expected

/-- One type is assignable to another by a rule with premises in `R`. -/
def Rule (actual expected : Ty) : Prop :=
  actual.same expected ∨ actual.isNever ∨ actual.isError ∨ expected.isError ∨ expected.isAny ∨
    Proper f R actual expected

/-! ## More premises justify more -/

section Mono

variable {f R} {S : Ty → Ty → Prop} (hRS : ∀ a e, R a e → S a e)

include hRS

theorem Fits.mono {a e : Ty} (h : Fits R a e) : Fits S a e := by
  rcases h with h | h | h | ⟨ha, he, h⟩
  · exact .inl h
  · exact .inr (.inl h)
  · exact .inr (.inr (.inl h))
  · exact .inr (.inr (.inr ⟨ha, he, hRS _ _ h⟩))

theorem SignatureFits.mono {a e : Signature Ty} (h : SignatureFits R a e) : SignatureFits S a e :=
  ⟨h.1, h.2.1.imp fun _ _ => hRS _ _, hRS _ _ h.2.2⟩

theorem Conforms.mono {available required : List (Method Ty)} (h : Conforms R available required) :
    Conforms S available required := by
  intro method hmethod
  obtain ⟨candidate, hcandidate, hnames, hsignature⟩ := h method hmethod
  exact ⟨candidate, hcandidate, hnames, hsignature.mono hRS⟩

theorem FieldsFit.mono {a e : StructBody Ty} (h : FieldsFit R a e) : FieldsFit S a e := by
  intro field hfield
  obtain ⟨found, hfound, htypes⟩ := h field hfield
  exact ⟨found, hfound, hRS _ _ htypes⟩

theorem CasesFit.mono {available required : List (VariantCase Ty)} (h : CasesFit R available required) :
    CasesFit S available required := by
  refine ⟨h.1, fun case hcase => ?_⟩
  obtain ⟨found, hfound, hparams⟩ := h.2 case hcase
  exact ⟨found, hfound, hparams.imp fun _ _ => hRS _ _⟩

theorem Structural.mono {a e : Ty} (h : Structural f R a e) : Structural f S a e := by
  revert h
  unfold Structural
  split
  case h_1 => exact id
  case h_2 => exact fun ⟨bound, hbound, h⟩ => ⟨bound, hbound, hRS _ _ h⟩
  case h_3 => exact fun h m hm => hRS _ _ (h m hm)
  case h_4 => exact fun ⟨m, hm, h⟩ => ⟨m, hm, hRS _ _ h⟩
  case h_5 => exact fun h m hm => hRS _ _ (h m hm)
  case h_6 => exact fun ⟨m, hm, h⟩ => ⟨m, hm, hRS _ _ h⟩
  case h_7 => exact Fits.mono hRS
  case h_8 => exact List.Forall₂.imp hRS
  case h_9 => exact FieldsFit.mono hRS
  case h_10 => exact Conforms.mono hRS
  case h_11 => exact Conforms.mono hRS
  case h_12 => exact hRS _ _
  case h_13 => exact fun ⟨hvariant, hname, hargs⟩ => ⟨hvariant, hname, hargs.imp fun _ _ => Fits.mono hRS⟩
  case h_14 => exact CasesFit.mono hRS
  case h_15 => exact SignatureFits.mono hRS
  case h_16 => exact SignatureFits.mono hRS
  case h_17 => exact id

theorem Resolved.mono {a e : Option NodeId × Ty} (h : Resolved R a e) : Resolved S a e := by
  revert h
  unfold Resolved
  split
  · split
    · exact id
    · exact Or.imp_right (hRS _ _)
  · exact id
  · exact id
  · exact Or.imp_right (hRS _ _)

theorem General.mono {a e : Ty} (h : General f R a e) : General f S a e := by
  revert h
  unfold General
  split
  · exact Structural.mono hRS
  · exact Resolved.mono hRS

theorem Proper.mono {a e : Ty} (h : Proper f R a e) : Proper f S a e := by
  have hargs {as es : List Ty} (h : List.Forall₂ (Fits R) as es) : List.Forall₂ (Fits S) as es :=
    h.imp fun _ _ => Fits.mono hRS
  revert h
  unfold Proper
  split
  · exact id
  · exact hRS _ _
  · exact hRS _ _
  · exact id
  · split
    · exact hargs
    · exact General.mono hRS
  · split
    · exact hargs
    · exact General.mono hRS
  · exact General.mono hRS

theorem Rule.mono {a e : Ty} (h : Rule f R a e) : Rule f S a e := by
  rcases h with h | h | h | h | h | h
  · exact .inl h
  · exact .inr (.inl h)
  · exact .inr (.inr (.inl h))
  · exact .inr (.inr (.inr (.inl h)))
  · exact .inr (.inr (.inr (.inr (.inl h))))
  · exact .inr (.inr (.inr (.inr (.inr (h.mono hRS)))))

end Mono

/-- The rules as a monotone operator on relations. -/
def rules (f : Unfolding) : (Ty → Ty → Prop) →o (Ty → Ty → Prop) where
  toFun R := Rule f R
  monotone' _ _ hRS _ _ h := h.mono hRS

/-- The greatest relation each of whose pairs is justified by a rule with premises in the relation. -/
def Assignable (f : Unfolding) : Ty → Ty → Prop :=
  (rules f).gfp

end Assignability

end Ascribe
