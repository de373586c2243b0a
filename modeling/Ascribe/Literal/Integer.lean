import Ascribe.Primitive
import Ascribe.Problem

/-!
# Integer literals

An integer literal is an optional `-`, an optional radix mark (`0x`, `0b`, `0o`, the letter in either
case), digits of that radix among which underscores are skipped, and an optional integer suffix such as
`u8`. The digits may carry a sign of their own. A magnitude is held in 128 bits.

`Literal.readInteger` gives the value and the suffix. A value outside the range of its suffix is a
problem of its own; every other fault is an invalid literal.
-/

namespace Ascribe.Literal

/-- The value of an integer literal and the kind its suffix asks for. -/
structure Integer where
  value : Int
  suffix : Option Primitive := none
  deriving DecidableEq, Repr

/-- The magnitude of the least value of a signed word of 128 bits, one more than its greatest value. -/
def wordBound : Nat :=
  Nat.pow 2 127

/-- Negation in a signed word of 128 bits: the least value is its own negation. -/
def negate128 (value : Int) : Int :=
  (-value).bmod (2 * wordBound)

/-- The radix a text announces and the text after the radix mark. -/
def splitRadix : List Char → Nat × List Char
  | '0' :: 'x' :: rest | '0' :: 'X' :: rest => (16, rest)
  | '0' :: 'b' :: rest | '0' :: 'B' :: rest => (2, rest)
  | '0' :: 'o' :: rest | '0' :: 'O' :: rest => (8, rest)
  | text => (10, text)

/-- The value of a digit, decimal digits first and then letters in either case. -/
def digitValue? (radix : Nat) (c : Char) : Option Nat :=
  let value? :=
    if c.isDigit then some (c.toNat - '0'.toNat)
    else if 'a' ≤ c ∧ c ≤ 'z' then some (c.toNat - 'a'.toNat + 10)
    else if 'A' ≤ c ∧ c ≤ 'Z' then some (c.toNat - 'A'.toNat + 10)
    else none
  value?.filter (· < radix)

/-- The number a list of digits denotes, most significant first, added to `acc` shifted by them. -/
def natOfDigits? (radix acc : Nat) : List Char → Option Nat
  | [] => some acc
  | c :: rest => do
    let d ← digitValue? radix c
    natOfDigits? radix (acc * radix + d) rest

/-- Digits with at most one sign in front, as a number of 128 bits. -/
def signedOfDigits? (radix : Nat) : List Char → Option Int
  | [] => none
  | ['+'] | ['-'] => none
  | '+' :: digits => magnitude? digits
  | '-' :: digits => (natOfDigits? radix 0 digits).bind fun n =>
      if n ≤ wordBound then some (-(n : Int)) else none
  | digits => magnitude? digits
where
  /-- Digits without a sign. -/
  magnitude? (digits : List Char) : Option Int :=
    (natOfDigits? radix 0 digits).bind fun n => if n < wordBound then some (n : Int) else none

/-- Split the suffix off: it starts at the first `u` or `i`, and must name an integer primitive. -/
def splitSuffix? (text : List Char) : Option (List Char × Option Primitive) :=
  match text.span fun c => c != 'u' && c != 'i' with
  | (digits, []) => some (digits, none)
  | (digits, suffix) => (Primitive.integerOfName? (String.ofList suffix)).map (digits, some ·)

/-- The parts of an integer literal, before the value is held against its suffix. -/
def integerParts? (text : List Char) : Option Integer := do
  let (negative, rest) := match text with
    | '-' :: rest => (true, rest)
    | rest => (false, rest)
  let (radix, rest) := splitRadix rest
  let (digits, suffix) ← splitSuffix? rest
  let magnitude ← signedOfDigits? radix (digits.filter (· != '_'))
  return ⟨if negative then negate128 magnitude else magnitude, suffix⟩

/-- Read an integer literal such as `42`, `-7i8`, `0xffu8`, `1_000_000u64`, `0b1010` or `0o17`. -/
def readInteger (text : String) : Except Problem Integer :=
  match integerParts? text.toList with
  | none => .error (.invalidLiteral text)
  | some literal =>
    match literal.suffix with
    | some kind =>
      if kind.fits literal.value then .ok literal
      else .error (.literalOutOfRange text kind.name)
    | none => .ok literal

end Ascribe.Literal
