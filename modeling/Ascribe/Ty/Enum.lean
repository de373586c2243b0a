import Ascribe.Ty.Basic

/-!
# Enumerations

The cases of an enumeration are represented by an integer. A case without an explicit value takes its
position. When no representation is named, it is the smallest unsigned integer type that holds every
value, or the smallest signed one when a value is negative.
-/

namespace Ascribe

namespace EnumBody

/-- The values of cases, counting positions from `position`. -/
def values (position : Nat) : List EnumCase → List Int
  | [] => []
  | c :: rest => c.value.getD position :: values (position + 1) rest

/-- The integer type that represents some cases. -/
def reprFor (cases : List EnumCase) : Primitive :=
  let values := values 0 cases
  let candidates : List Primitive :=
    if values.any (· < 0) then [.i8, .i16, .i32, .i64] else [.u8, .u16, .u32, .u64]
  (candidates.find? fun p => values.all p.fits).getD .i64

end EnumBody

/-- An enumeration, with its representation picked from its values unless one is named. -/
def Ty.enum (cases : List EnumCase) (repr : Option Primitive) : Ty :=
  of (.enum ⟨cases, repr.getD (EnumBody.reprFor cases)⟩)

end Ascribe
