import Ascribe.Ty.Text

/-!
# Mismatches

Why a value of one type cannot be used where another type is expected. `Mismatch.message` words it.
-/

namespace Ascribe

/-- The reason why one type is not assignable to another. -/
inductive Mismatch where
  | unlike (actual expected : Ty)
  | mayBeNull (actual expected : Ty)
  /-- Classes are told apart by their declarations. -/
  | distinctClasses (actual expected : Ty)
  | argument (actual expected arg param : Ty)
  | tupleLength (actual expected : Ty) (wanted found : Nat)
  | missingField (name : String)
  | field (name : String) (detail : Mismatch)
  | missingConstructor (name : String)
  | missingMethod (name : String) (signature : Signature Ty)
  /-- The mismatch shows only after named types are resolved. -/
  | resolved (actual expected : Ty) (detail : Mismatch)

namespace Mismatch

/-- The plain statement that every longer message about two types starts with. -/
def headline (actual expected : Ty) : String :=
  "type " ++ actual.text ++ " is not assignable to " ++ expected.text

/-- The wording of a mismatch. -/
def message : Mismatch → String
  | .unlike actual expected => headline actual expected
  | .mayBeNull actual expected => headline actual expected ++ ": value may be null"
  | .distinctClasses actual expected => headline actual expected ++ ": distinct classes"
  | .argument actual expected arg param =>
    headline actual expected ++ ": argument " ++ arg.text ++ " does not match " ++ param.text
  | .tupleLength actual expected wanted found =>
    headline actual expected ++ s!": expected {wanted} elements, found {found}"
  | .missingField name => s!"missing field '{name}'"
  | .field name detail => s!"field '{name}': " ++ detail.message
  | .missingConstructor name => s!"missing constructor '{name}'"
  | .missingMethod name signature =>
    s!"missing method '{name}' with signature " ++ signature.text
  | .resolved actual expected detail =>
    headline actual expected ++ " (" ++ detail.message ++ ")"

end Mismatch

/-- The outcome of comparing two types. -/
abbrev Verdict := Except Mismatch Unit

/-- Whether a comparison succeeded. -/
def Verdict.holds : Verdict → Bool
  | .ok () => true
  | .error _ => false

end Ascribe
