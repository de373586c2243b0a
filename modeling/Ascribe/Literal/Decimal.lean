import Ascribe.Primitive
import Ascribe.Problem

/-!
# Decimal literals

A decimal literal is a number text with an optional suffix `f64`, `f32` or `f`; underscores are skipped.
A number text is an optional sign followed by `inf`, `infinity` or `nan` in any case, or by digits with
at most one point, at least one digit around it, and an optional exponent with at least one digit.

Only the suffix matters to a type, so `Literal.readDecimal` checks the text and returns the suffix.
-/

namespace Ascribe.Literal

/-- Split the suffix off; a bare `f` asks for 32 bits. -/
def splitDecimalSuffix (text : List Char) : List Char × Option Primitive :=
  match text.reverse with
  | '4' :: '6' :: 'f' :: rest => (rest.reverse, some .f64)
  | '2' :: '3' :: 'f' :: rest => (rest.reverse, some .f32)
  | 'f' :: rest => (rest.reverse, some .f32)
  | _ => (text, none)

/-- The text after an optional sign. -/
def dropSign : List Char → List Char
  | '+' :: rest | '-' :: rest => rest
  | text => text

/-- Whether a text is empty or an exponent: `e` or `E`, an optional sign and digits. -/
def isExponent : List Char → Bool
  | [] => true
  | 'e' :: rest | 'E' :: rest =>
    let digits := dropSign rest
    !digits.isEmpty && digits.all Char.isDigit
  | _ => false

/-- Whether a text without a sign is a plain decimal number. -/
def isUnsignedDecimal (text : List Char) : Bool :=
  let whole := text.takeWhile Char.isDigit
  match text.dropWhile Char.isDigit with
  | '.' :: rest =>
    let fraction := rest.takeWhile Char.isDigit
    !(whole.isEmpty && fraction.isEmpty) && isExponent (rest.dropWhile Char.isDigit)
  | rest => !whole.isEmpty && isExponent rest

/-- Whether a text names an infinity or an undefined number, in any case. -/
def isSpecialNumber (text : List Char) : Bool :=
  ["inf", "infinity", "nan"].contains (String.ofList (text.map Char.toLower))

/-- Whether a text is a number text. -/
def isNumberText (text : List Char) : Bool :=
  let magnitude := dropSign text
  isSpecialNumber magnitude || isUnsignedDecimal magnitude

/-- Read a decimal literal such as `1.5`, `2.0f`, `3e2f32` or `0.5f64`, giving the kind its suffix asks
for. -/
def readDecimal (text : String) : Except Problem (Option Primitive) :=
  let (number, suffix) := splitDecimalSuffix text.toList
  if isNumberText (number.filter (· != '_')) then .ok suffix
  else .error (.invalidLiteral text)

end Ascribe.Literal
