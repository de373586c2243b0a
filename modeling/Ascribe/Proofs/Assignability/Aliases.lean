import Ascribe.Proofs.Assignability.Assumptions
import Ascribe.Proofs.Assignability.Named

/-!
# Declarations that stand for one type

Two declarations that stand for the same type are assignable to the same types, and the same types to them, as
long as the other type does not tell them apart (`Ty.Impartial`). A type can do so only by naming one of them:
classes are told apart by the declaration they are named by, a named type takes as many arguments as its
declaration has parameters, and a constructor belongs to the declaration of its variant.

## Key results

- `rule_from_impartial`, `rule_to_impartial`: the rules justify both declarations from the same premises
- `Accepted.from_impartial`, `Accepted.to_impartial`: comparison accepts both
-/

namespace Ascribe

namespace Ty

def isVariant (t : Ty) : Bool :=
  match t.shape with
  | .variant _ => true
  | _ => false

/-- A type without the null it may admit, at any number of layers. -/
def core : Ty → Ty
  | ⟨.nullable base, _⟩ => base.core
  | t => t

theorem core_eq_self {t : Ty} (h : ∀ base, t.shape ≠ .nullable base) : t.core = t := by
  fun_cases core t with
  | case1 base origin => exact absurd rfl (h base)
  | case2 t hnullable => rfl

/-- A type does not tell two declarations apart that stand for `t`. If it names one of them, then without
arguments and `t` is not a class; and if it is a constructor of one of them without arguments, then of the
variant `t`. -/
def Impartial (decl decl' : NodeId) (t e : Ty) : Prop :=
  match e.core.shape with
  | .ref r => r.decl = decl ∨ r.decl = decl' → r.args = [] ∧ t.isClass = false
  | .constructed c =>
    c.decl = some decl ∨ c.decl = some decl' → c.args = [] → t.isVariant = true ∧ c.variant.same t = true
  | _ => True

variable {decl decl' : NodeId} {t e : Ty}

theorem Impartial.swap (h : Impartial decl decl' t e) : Impartial decl' decl t e := by
  revert h
  unfold Impartial
  split
  · exact fun h hdecl => h hdecl.symm
  · exact fun h hdecl => h hdecl.symm
  · exact id

theorem Impartial.variant {c : Constructed Ty} (h : Impartial decl decl' t e) (hshape : e.shape = .constructed c)
    (hdecl : c.decl = some decl) (hargs : c.args = []) : t.isVariant = true ∧ c.variant.same t = true := by
  unfold Impartial at h
  rw [core_eq_self (by simp [hshape]), hshape] at h
  exact h (.inl hdecl) hargs

end Ty

namespace Unfolding

variable {f : Unfolding} {t : Ty}

/-- Two declarations stand for the type `t`, which is not named, when they are given no arguments. -/
structure Coincide (f : Unfolding) (decl decl' : NodeId) (t : Ty) : Prop where
  ends : f.Ends
  unnamed : t.reference? = none
  first : ∀ name, f ⟨decl, name, []⟩ = t
  second : ∀ name, f ⟨decl', name, []⟩ = t

namespace Coincide

variable {decl decl' : NodeId} (h : f.Coincide decl decl' t)

include h

theorem swap : f.Coincide decl' decl t :=
  ⟨h.ends, h.unnamed, h.second, h.first⟩

theorem declared_first (name : String) : f.declared (.reference decl name []) = (some decl, t) := by
  rw [declared_of_named (r := ⟨decl, name, []⟩) rfl (by rw [h.first, h.unnamed]), h.first]

end Coincide

end Unfolding

namespace Assignability

variable {f : Unfolding} {R : Ty → Ty → Prop} {a e : Ty} {r : Reference Ty}

section Coincide

variable {decl decl' : NodeId} {t : Ty} {name name' : String} (h : f.Coincide decl decl' t)

include h

/-- A type that names the first declaration without telling it from the second stands for `t`. -/
theorem declared_of_impartial (he : Ty.Impartial decl decl' t e) (hshape : e.shape = .ref r)
    (hdecl : decl = r.decl) : r.args = [] ∧ t.isClass = false ∧ f.declared e = (some decl, t) := by
  unfold Ty.Impartial at he
  rw [Ty.core_eq_self (by simp [hshape]), hshape] at he
  obtain ⟨hargs, ht⟩ := he (.inl hdecl.symm)
  obtain ⟨_, name, _⟩ := r
  obtain rfl : decl = _ := hdecl
  obtain rfl : _ = [] := hargs
  have hr := h.first name
  exact ⟨rfl, ht, by rw [Unfolding.declared_of_named hshape (by rw [hr, h.unnamed]), hr]⟩

/-- If the declarations stand for a class, `declared` of an `Impartial` type is not the first one. -/
theorem declared_ne_of_impartial (he : Ty.Impartial decl decl' t e) (ht : t.isClass = true) :
    (f.declared e).1 ≠ some decl := by
  cases href : e.reference? with
  | none =>
    rw [Unfolding.declared_of_unnamed href]
    nofun
  | some r =>
    rw [Ty.reference?_eq_some] at href
    rw [Unfolding.declared_fst_of_named h.ends href]
    intro hdecl
    obtain ⟨-, hclass, -⟩ := declared_of_impartial h he href (Option.some.inj hdecl).symm
    exact nomatch ht.symm.trans hclass

/-- A `Rule` that justifies a declaration for a type that is `Impartial` between it and another one justifies the other.
-/
theorem rule_from_impartial (he : Ty.Impartial decl decl' t e) (hcore : ∀ base, e.shape ≠ .nullable base)
    (ha : Rule f R (.reference decl name []) e) : Rule f R (.reference decl' name' []) e := by
  rw [rule_from_named_iff rfl] at ha ⊢
  have hrename : Resolved R (f.declared (.reference decl name [])) (f.declared e) →
      Resolved R (f.declared (.reference decl' name' [])) (f.declared e) := by
    rw [h.declared_first, h.swap.declared_first]
    exact fun hresolved => hresolved.rename_from (declared_ne_of_impartial h he)
  cases hshape : e.shape with
  | nullable base => exact absurd hshape (hcore base)
  | ref r =>
    rw [hshape] at ha
    dsimp only at ha ⊢
    by_cases hdecl' : decl' = r.decl
    · obtain ⟨hargs, -⟩ := declared_of_impartial h.swap he.swap hshape hdecl'
      rw [if_pos hdecl', hargs]
      exact .inr .nil
    rw [if_neg hdecl']
    by_cases hdecl : decl = r.decl
    · obtain ⟨-, ht, hdeclared⟩ := declared_of_impartial h he hshape hdecl
      rw [h.swap.declared_first, hdeclared]
      exact resolved_self ht _ _
    · rw [if_neg hdecl] at ha
      exact hrename ha
  | _ =>
    rw [hshape] at ha
    exact ha.imp_right (Or.imp_right hrename)

/-- A `Rule` that justifies a type for a declaration, and that is `Impartial` between it and another one, justifies it
for the other. -/
theorem rule_to_impartial (ha : Ty.Impartial decl decl' t a) (hvariant : t.isVariant = true → ∀ c,
      a.shape = .constructed c → c.variant.same t = true → R a t)
    (he : Rule f R a (.reference decl name [])) : Rule f R a (.reference decl' name' []) := by
  rw [rule_to_named_iff rfl] at he ⊢
  have hrename : Resolved R (f.declared a) (f.declared (.reference decl name [])) →
      Resolved R (f.declared a) (f.declared (.reference decl' name' [])) := by
    rw [h.declared_first, h.swap.declared_first]
    exact fun hresolved => hresolved.rename_to (declared_ne_of_impartial h ha)
  cases hshape : a.shape with
  | nullable base =>
    rw [hshape] at he
    exact he
  | ref r =>
    rw [hshape] at he
    dsimp only at he ⊢
    by_cases hdecl' : decl' = r.decl
    · obtain ⟨hargs, -⟩ := declared_of_impartial h.swap ha.swap hshape hdecl'
      rw [if_pos hdecl'.symm, hargs]
      exact .inr .nil
    rw [if_neg (Ne.symm hdecl')]
    by_cases hdecl : decl = r.decl
    · obtain ⟨-, ht, hdeclared⟩ := declared_of_impartial h ha hshape hdecl
      rw [h.swap.declared_first, hdeclared]
      exact resolved_self ht _ _
    · rw [if_neg (Ne.symm hdecl)] at he
      exact hrename he
  | constructed c =>
    rw [hshape] at he
    dsimp only at he ⊢
    split
    · next hdecl' =>
      rw [List.eq_nil_of_length_eq_zero hdecl'.2]
      exact .nil
    · split at he
      · next hdecl =>
        -- a constructor of the first declaration is one of the variant `t`
        obtain ⟨ht, hsame⟩ := ha.variant hshape hdecl.1 (List.eq_nil_of_length_eq_zero hdecl.2)
        rw [h.swap.declared_first, Unfolding.declared_of_unnamed (by simp [Ty.reference?, hshape])]
        exact resolved_unnamed (by simp [Ty.reference?, hshape]) h.unnamed (.inl rfl) (hvariant ht c hshape hsame)
      · exact hrename he
  | _ =>
    rw [hshape] at he
    exact he.imp_right (Or.imp_right hrename)

end Coincide

end Assignability

section Comparison

open Assignability

variable {σ : Type} {resolve : Resolver σ} {f : Unfolding} (hresolve : resolve.Follows f) (hf : f.Respects)
  {decl decl' : NodeId} {t a e : Ty} {name name' : String} (h : f.Coincide decl decl' t)

include hresolve

/-- A constructor of a variant is `Accepted` for it. -/
theorem Accepted.variant {watch : Ty → Ty → Search σ Unit} {c : Constructed Ty} (ht : t.isVariant = true)
    (hshape : a.shape = .constructed c) (hsame : c.variant.same t = true) : Accepted watch resolve a t := by
  have hvariant : Accepted watch resolve c.variant t := .of_rule hresolve (.inl hsame)
  refine .of_rule hresolve (.inr (.inr (.inr (.inr (.inr ?_)))))
  unfold Ty.isVariant at ht
  split at ht
  · next cases htshape => simpa [Proper, General, Structural, Ty.reference?, hshape, htshape] using hvariant
  · cases ht

include hf h

/-- A declaration is `Accepted` for a type that is `Impartial` between it and one that is accepted. -/
theorem Accepted.from_impartial (he : Ty.Impartial decl decl' t e)
    (ha : AcceptedUnder resolve [] (.reference decl name []) e) :
    Accepted (refuseNamesakes [(.reference decl name [], e.core)]) resolve (.reference decl' name' []) e := by
  revert he ha
  fun_induction Ty.core e with
  | case1 base origin ih =>
    intro he ha
    have hname : Comparer.byName (.reference decl name []) ⟨.nullable base, origin⟩ = false := by
      simp [Comparer.byName, Comparer.isSpecial, Ty.isNullable]
    have hbase : AcceptedUnder resolve [] (.reference decl name []) base :=
      (rule_from_named_iff rfl).mp (ha.rule hresolve hname)
    exact .of_rule hresolve ((rule_from_named_iff rfl).mpr (ih he hbase))
  | case2 e hnullable =>
    intro he ha
    refine ha.accepted_of_rule hresolve hf fun R _ => ?_
    obtain ⟨shape, origin⟩ := e
    exact rule_from_impartial h he fun base hshape => hnullable base origin (congrArg (Ty.mk · origin) hshape)

/-- A type is `Accepted` for a declaration if it is `Impartial` between that and one it is accepted for. -/
theorem Accepted.to_impartial (ha : Ty.Impartial decl decl' t a)
    (he : AcceptedUnder resolve [] a (.reference decl name [])) :
    Accepted (refuseNamesakes [(a, .reference decl name [])]) resolve a (.reference decl' name' []) := by
  refine he.accepted_of_rule hresolve hf fun R hR hrule => ?_
  exact rule_to_impartial h ha (fun ht c hshape hsame => hR a t (.variant hresolve ht hshape hsame)) hrule

end Comparison

end Ascribe
