import Ascribe.Proofs.Assignability.SameTypes

/-!
# Coinduction under assumptions

`Justified f Γ` is the greatest relation each of whose pairs is justified by a rule whose premises are in
the relation or assumed in `Γ`. Without assumptions it is `Assignable f`. An assumption may be dropped once
the pairs it is about are justified under it (`Justified.discharge`): this is what makes it sound to assume
a pair while its own parts are compared.

The greatest relations do not tell types apart that are the same (`justified_erase`), so an assumption is as
good for every type that is the same as the one it was made for.
-/

namespace Ascribe.Assignability

/-- The rules with some premises assumed, as a monotone operator on relations. -/
def rulesUnder (f : Unfolding) (Γ : Ty → Ty → Prop) : (Ty → Ty → Prop) →o (Ty → Ty → Prop) where
  toFun R := Rule f (R ⊔ Γ)
  monotone' _ _ hRS _ _ h := h.mono fun _ _ => Or.imp_left (hRS _ _)

/-- The greatest relation each of whose pairs is justified by a rule with premises in the relation or
assumed. -/
def Justified (f : Unfolding) (Γ : Ty → Ty → Prop) : Ty → Ty → Prop :=
  (rulesUnder f Γ).gfp

variable {f : Unfolding} {Γ Δ R : Ty → Ty → Prop}

theorem rule_iff_assignable {a e : Ty} : Rule f (Assignable f) a e ↔ Assignable f a e :=
  iff_of_eq (congrFun₂ (rules f).map_gfp a e)

theorem rule_iff_justified {a e : Ty} : Rule f (Justified f Γ ⊔ Γ) a e ↔ Justified f Γ a e :=
  iff_of_eq (congrFun₂ (rulesUnder f Γ).map_gfp a e)

/-- Coinduction: a relation whose pairs a `Rule` justifies with premises in it is `Justified`. -/
theorem le_justified (h : R ≤ Rule f (R ⊔ Γ)) : R ≤ Justified f Γ :=
  (rulesUnder f Γ).le_gfp h

theorem justified_bot : Justified f ⊥ = Assignable f := by
  have hrules : rulesUnder f ⊥ = rules f :=
    OrderHom.ext _ _ (funext fun R => congrArg (Rule f) (sup_bot_eq R))
  rw [Justified, Assignable, hrules]

namespace Justified

theorem mono (hΓ : Γ ≤ Δ) : Justified f Γ ≤ Justified f Δ := by
  refine le_justified fun a e h => ?_
  exact (rule_iff_justified.mpr h).mono fun _ _ => Or.imp_right (hΓ _ _)

/-- Pairs that are `Justified` under the assumption of themselves need not be assumed. -/
theorem discharge (h : R ≤ Rule f (Justified f (R ⊔ Γ) ⊔ (R ⊔ Γ))) : R ≤ Justified f Γ := by
  -- what is justified under the assumption, and the assumed pairs, together justify each other
  suffices hboth : Justified f (R ⊔ Γ) ⊔ R ≤ Justified f Γ from le_sup_right.trans hboth
  refine le_justified ?_
  rw [sup_assoc]
  refine sup_le (fun a e hjustified => ?_) h
  exact rule_iff_justified.mpr hjustified

end Justified

/-- `Justified` looks through back-references if its assumptions do. -/
theorem justified_erase (hf : f.Respects) (hΓ : ∀ a e, Γ a.erase e.erase ↔ Γ a e) (a e : Ty) :
    Justified f Γ a.erase e.erase ↔ Justified f Γ a e := by
  -- close the relation under sameness; the result is still justified by its own pairs
  let S := UpToOrigins (Justified f Γ)
  have hS : ∀ a e, (S ⊔ Γ) a.erase e.erase ↔ (S ⊔ Γ) a e := fun a e => or_congr (UpToOrigins.erase a e) (hΓ a e)
  have hjustified : S ≤ Justified f Γ := by
    refine le_justified ?_
    rintro a e ⟨a', e', ha, he, h⟩
    have hrule : Rule f (S ⊔ Γ) a' e' := (rule_iff_justified.mpr h).mono fun x y => Or.imp_left .of
    rw [← rule_erase hS hf] at hrule ⊢
    rwa [ha, he] at hrule
  constructor
  · intro h
    exact hjustified a e ((UpToOrigins.erase a e).mp (.of h))
  · intro h
    exact hjustified a.erase e.erase ((UpToOrigins.erase a e).mpr (.of h))

theorem assignable_erase (hf : f.Respects) (a e : Ty) :
    Assignable f a.erase e.erase ↔ Assignable f a e := by
  rw [← justified_bot]
  exact justified_erase hf (fun _ _ => Iff.rfl) a e

/-- `Assignable` depends on types up to `Ty.same`. -/
theorem assignable_congr (hf : f.Respects) {a a' e e' : Ty} (ha : a.same a' = true) (he : e.same e' = true) :
    Assignable f a e ↔ Assignable f a' e' := by
  rw [Ty.same_iff_erase_eq] at ha he
  rw [← assignable_erase hf a e, ha, he, assignable_erase hf]

end Ascribe.Assignability
