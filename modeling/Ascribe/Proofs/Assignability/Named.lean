import Ascribe.Proofs.Assignability.Rules

/-!
# Rules for named types

What the rules come to for a pair with a named type, once what named types stand for is known: a type that is not
named stands for itself, and a named one for what the unfolding says if that is not named again. The declaration
that names a type matters for classes only.
-/

namespace Ascribe

def Ty.isClass (t : Ty) : Bool :=
  match t.shape with
  | .cls _ => true
  | _ => false

namespace Unfolding

variable {f : Unfolding} {t : Ty} {r : Reference Ty}

/-- A named type stands for itself or for a type that is not named. -/
def Ends (f : Unfolding) : Prop :=
  ∀ r, f r = .of (.ref r) ∨ (f r).reference? = none

theorem declared_of_unnamed (h : t.reference? = none) : f.declared t = (none, t) := by
  rw [declared, maxAliasChain, follow, h]

theorem declared_of_named (ht : t.shape = .ref r) (hr : (f r).reference? = none) :
    f.declared t = (some r.decl, f r) := by
  have href : t.reference? = some r := Ty.reference?_eq_some.mpr ht
  have hself : ¬ (f r).same t = true := by
    intro hsame
    have := congrArg Ty.reference? ((Ty.same_iff_erase_eq _ _).mp hsame)
    simp [hr, href] at this
  rw [declared, maxAliasChain, follow, href]
  simp only [Ty.beq_eq_same, hself]
  rw [follow, hr]
  rfl

theorem declared_fst_of_named (hends : f.Ends) (ht : t.shape = .ref r) : (f.declared t).1 = some r.decl := by
  rcases hends r with hself | hr
  · have hsame : (f r).same t = true := by
      rw [hself, Ty.same_iff_erase_eq, Ty.erase_eq, Ty.erase_eq, ht]
      rfl
    rw [declared, maxAliasChain, follow, Ty.reference?_eq_some.mpr ht]
    simp only [Ty.beq_eq_same, hsame, if_true]
  · rw [declared_of_named ht hr]

/-- What a type stands for. -/
def meaning (f : Unfolding) (t : Ty) : Ty :=
  (f.declared t).2

theorem meaning_of_unnamed (h : t.reference? = none) : f.meaning t = t := by
  rw [meaning, declared_of_unnamed h]

theorem meaning_of_named (ht : t.reference? = some r) (hr : (f r).reference? = none) : f.meaning t = f r := by
  rw [meaning, declared_of_named (Ty.reference?_eq_some.mp ht) hr]

/-- What a type stands for by the unfolding, which may be a named type again. -/
def once (f : Unfolding) (t : Ty) : Ty :=
  match t.reference? with
  | some r => f r
  | none => t

theorem once_eq_meaning (h : (f.once t).reference? = none) : f.once t = f.meaning t := by
  unfold once at h ⊢
  split at h
  · next r href => rw [meaning_of_named href h]
  · next href => rw [meaning_of_unnamed href]

end Unfolding

namespace Assignability

variable {f : Unfolding} {R : Ty → Ty → Prop} {a e t : Ty} {r : Reference Ty}

/-- `Rule` for a named type that is to be assigned. -/
theorem rule_from_named_iff (ha : a.shape = .ref r) :
    Rule f R a e ↔
      match e.shape with
      | .nullable base => R a base
      | .ref r' =>
        if r.decl = r'.decl then a.same e = true ∨ List.Forall₂ (Fits R) r.args r'.args
        else Resolved R (f.declared a) (f.declared e)
      | _ => e.isError = true ∨ e.isAny = true ∨ Resolved R (f.declared a) (f.declared e) := by
  have hnever : a.isNever = false := by simp [Ty.isNever, Ty.isPrimitive, Ty.primitive?, ha]
  have herror : a.isError = false := by simp [Ty.isError, Ty.problem?, ha]
  have hgeneral : General f R a e ↔ Resolved R (f.declared a) (f.declared e) := by
    simp [General, Ty.reference?_eq_some.mpr ha]
  simp only [Rule, Proper, hnever, herror, Ty.same_eq, ha, hgeneral]
  cases he : e.shape with
  | ref r' => by_cases hdecl : r.decl = r'.decl <;>
      simp [Shape.agree, Ty.isError, Ty.problem?, Ty.isAny, Ty.isPrimitive, Ty.primitive?, he, hdecl]
  | _ => simp [Shape.agree, Ty.isError, Ty.problem?, Ty.isAny, Ty.isPrimitive, Ty.primitive?, he]

/-- `Rule` for a named type that is assigned to. -/
theorem rule_to_named_iff (he : e.shape = .ref r) :
    Rule f R a e ↔
      match a.shape with
      | .nullable _ => False
      | .ref r' =>
        if r'.decl = r.decl then a.same e = true ∨ List.Forall₂ (Fits R) r'.args r.args
        else Resolved R (f.declared a) (f.declared e)
      | .constructed c =>
        if c.decl = some r.decl ∧ c.args.length = r.args.length then List.Forall₂ (Fits R) c.args r.args
        else Resolved R (f.declared a) (f.declared e)
      | _ => a.isNever = true ∨ a.isError = true ∨ Resolved R (f.declared a) (f.declared e) := by
  have hany : e.isAny = false := by simp [Ty.isAny, Ty.isPrimitive, Ty.primitive?, he]
  have herror : e.isError = false := by simp [Ty.isError, Ty.problem?, he]
  have hgeneral : General f R a e ↔ Resolved R (f.declared a) (f.declared e) := by
    simp [General, Ty.reference?_eq_some.mpr he]
  simp only [Rule, Proper, hany, herror, Ty.same_eq, he, hgeneral]
  cases ha : a.shape with
  | ref r' => by_cases hdecl : r'.decl = r.decl <;>
      simp [Shape.agree, Ty.isError, Ty.problem?, Ty.isNever, Ty.isPrimitive, Ty.primitive?, ha, hdecl]
  | _ => simp [Shape.agree, Ty.isError, Ty.problem?, Ty.isNever, Ty.isPrimitive, Ty.primitive?, ha]

/-- `Resolved` depends on the declaration that names the type to be assigned only for classes. -/
theorem Resolved.rename_from {decl decl' : NodeId} {x : Option NodeId × Ty} (h : Resolved R (some decl, t) x)
    (hx : t.isClass = true → x.1 ≠ some decl) : Resolved R (some decl', t) x := by
  revert h
  unfold Resolved
  simp only [Option.isSome_some, Bool.true_and]
  split
  · next hshape _ =>
    have hdecl := hx (by simp [Ty.isClass, hshape])
    split
    · exact fun hsame => absurd hsame.1.symm hdecl
    · exact id
  · exact id
  · exact id
  · exact id

/-- `Resolved` depends on the declaration that names the type that is assigned to only for classes. -/
theorem Resolved.rename_to {decl decl' : NodeId} {x : Option NodeId × Ty} (h : Resolved R x (some decl, t))
    (hx : t.isClass = true → x.1 ≠ some decl) : Resolved R x (some decl', t) := by
  revert h
  unfold Resolved
  simp only [Option.isSome_some, Bool.and_true]
  split
  · next _ hshape =>
    have hdecl := hx (by simp [Ty.isClass, hshape])
    split
    · exact fun hsame => absurd hsame.1 hdecl
    · exact id
  · exact id
  · exact id
  · exact id

/-- `Resolved` holds of declarations that stand for one type, unless it is a class. -/
theorem resolved_self (ht : t.isClass = false) (decl decl' : Option NodeId) :
    Resolved R (decl, t) (decl', t) := by
  unfold Resolved
  dsimp only
  split
  · next hshape _ => simp [Ty.isClass, hshape] at ht
  · exact t.same_refl
  · exact t.same_refl
  · exact .inl t.same_refl

/-- `Resolved` compares types as they are if one of them was not found by a name. -/
theorem resolved_unnamed {decl decl' : Option NodeId} (ha : a.reference? = none) (ht : t.reference? = none)
    (hdecl : decl = none ∨ decl' = none) (h : R a t) : Resolved R (decl, a) (decl', t) := by
  rw [Ty.reference?_eq_none_iff] at ha ht
  have hunnamed : (decl.isSome && decl'.isSome) = false := by
    rcases hdecl with rfl | rfl <;> simp
  unfold Resolved
  dsimp only
  rw [hunnamed]
  split
  · exact .inr h
  · next hshape => exact absurd hshape (ha _)
  · next hshape _ => exact absurd hshape (ht _)
  · exact .inr h

end Assignability

end Ascribe
