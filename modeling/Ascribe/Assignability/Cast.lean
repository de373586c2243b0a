import Ascribe.Assignability.Compare

/-!
# Casts

What a cast from one type to another asks of the running program. A cast along the order of assignability
is safe. A conversion between numbers, between an enumeration and an integer, out of a nullable, or back
along assignability may fail and is unchecked. Any other cast relates nothing.
-/

namespace Ascribe

/-- How a cast behaves. -/
inductive CastSafety where
  /-- Every value of the source is a value of the target. -/
  | safe
  /-- The cast may succeed, and needs a check or a conversion. -/
  | unchecked
  /-- No value of the source is a value of the target. -/
  | unrelated
  deriving DecidableEq, Repr

namespace Comparer

variable {σ : Type} (c : Comparer σ)

/-- Whether one type is assignable to another, nothing being assumed. -/
def assignable (actual expected : Ty) : Search σ Bool :=
  c.holds [] actual expected

/-- Whether a cast converts between numbers or between an enumeration and an integer, or has `any` on one
side. -/
def converts (source target : Ty) : Bool :=
  source.isAny || target.isAny || (source.isNumeric && target.isNumeric)
    || match source.shape, target.shape with
      | .enum _, _ => target.isInteger
      | _, .enum _ => source.isInteger
      | _, _ => false

/-- Whether the base of a nullable source is assignable to the target. -/
def unwraps (source target : Ty) : Search σ Bool :=
  match source.shape with
  | .nullable base => c.assignable base target
  | _ => return false

/-- Classify a cast. -/
def castSafety (source target : Ty) : Search σ CastSafety := do
  if ← c.assignable source target then return .safe
  let source ← c.resolve.target source
  let target ← c.resolve.target target
  if converts source target then return .unchecked
  if ← c.unwraps source target then return .unchecked
  if ← c.assignable target source then return .unchecked
  return .unrelated

end Comparer

/-- Classify a cast between types that have no declarations. -/
def castSafetyUnresolved (source target : Ty) : Except Fault CastSafety :=
  askUnresolved source target fun c => c.castSafety source target

end Ascribe
