import Ascribe.Ty.Basic

/-!
# The size of a type

The number of types a type is made of, itself included. Every part is smaller than the type it is a part of
(`Ty.size_lt_of_mem_parts`), so a recursion that goes from types to their parts is bounded by the size, and a
property that passes from the parts of a type to the type holds of every type (`Ty.induction_on_parts`).
-/

namespace Ascribe.Ty

/-- The number of types a type is made of, at any depth. -/
def size (t : Ty) : Nat :=
  t.fold fun _ parts => parts.parts.foldr Nat.add 1

theorem size_eq (t : Ty) : t.size = (t.shape.parts.map size).foldr Nat.add 1 := by
  rw [size, fold_eq, Shape.parts_map]
  rfl

private theorem foldr_add_pos (sizes : List Nat) : 0 < sizes.foldr Nat.add 1 := by
  induction sizes with
  | nil => exact Nat.one_pos
  | cons n ns ih => exact Nat.lt_of_lt_of_le ih (Nat.le_add_left _ n)

theorem size_pos (t : Ty) : 0 < t.size := by
  rw [size_eq]
  exact foldr_add_pos _

/-- `size` gets smaller from a type to each of its `parts`. -/
theorem size_lt_of_mem_parts {t part : Ty} (h : part ∈ t.shape.parts) : part.size < t.size := by
  rw [size_eq t]
  generalize t.shape.parts = parts at h
  induction parts with
  | nil => cases h
  | cons first rest ih =>
    rcases List.mem_cons.mp h with rfl | h
    · exact Nat.lt_add_of_pos_right (foldr_add_pos _)
    · exact Nat.lt_of_lt_of_le (ih h) (Nat.le_add_left _ _)

/-- Induction over `parts`: a property that a type has if its parts have it holds of every type. -/
theorem induction_on_parts {P : Ty → Prop} (t : Ty)
    (step : ∀ t : Ty, (∀ part ∈ t.shape.parts, P part) → P t) : P t :=
  step t fun part _ => induction_on_parts part step
termination_by t.size
decreasing_by exact size_lt_of_mem_parts ‹_›

end Ascribe.Ty
