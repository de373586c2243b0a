/-!
# Primitive types

The seventeen built-in scalar types: their names, the value ranges of the integers, and the order in
which numeric types convert into each other without a cast.

`Primitive.coercesTo` is that order. `Primitive.widen` picks the type of an operation on two numeric
operands: one of the two when it already holds the other, else a larger type that holds both.
-/

namespace Ascribe

/-- A built-in scalar type. -/
inductive Primitive where
  | u8 | u16 | u32 | u64
  | i8 | i16 | i32 | i64
  | f32 | f64
  | bool | string | void | null | never | any | unset
  deriving DecidableEq, Repr, Inhabited

namespace Primitive

/-- Every primitive, integers first. -/
def all : List Primitive :=
  [.u8, .u16, .u32, .u64, .i8, .i16, .i32, .i64, .f32, .f64,
    .bool, .string, .void, .null, .never, .any, .unset]

/-- The integer primitives, unsigned ones first, each group by width. -/
def integers : List Primitive :=
  [.u8, .u16, .u32, .u64, .i8, .i16, .i32, .i64]

/-- The keyword that names a primitive. -/
def name : Primitive → String
  | .u8 => "u8" | .u16 => "u16" | .u32 => "u32" | .u64 => "u64"
  | .i8 => "i8" | .i16 => "i16" | .i32 => "i32" | .i64 => "i64"
  | .f32 => "f32" | .f64 => "f64"
  | .bool => "bool" | .string => "string" | .void => "void" | .null => "null"
  | .never => "never" | .any => "any" | .unset => "unset"

/-- The primitive a keyword names, if it names one. -/
def ofName? (keyword : String) : Option Primitive :=
  all.find? (·.name == keyword)

/-- The integer primitive a literal suffix such as `u8` names. -/
def integerOfName? (suffix : String) : Option Primitive :=
  integers.find? (·.name == suffix)

def isInteger : Primitive → Bool
  | .u8 | .u16 | .u32 | .u64 | .i8 | .i16 | .i32 | .i64 => true
  | _ => false

def isFloat : Primitive → Bool
  | .f32 | .f64 => true
  | _ => false

def isNumeric (p : Primitive) : Bool :=
  p.isInteger || p.isFloat

def isSigned : Primitive → Bool
  | .i8 | .i16 | .i32 | .i64 => true
  | _ => false

def isUnsigned (p : Primitive) : Bool :=
  p.isInteger && !p.isSigned

/-- Width in bits of a numeric primitive. -/
def width? : Primitive → Option Nat
  | .u8 | .i8 => some 8
  | .u16 | .i16 => some 16
  | .u32 | .i32 | .f32 => some 32
  | .u64 | .i64 | .f64 => some 64
  | _ => none

/-- Least and greatest value of an integer primitive. -/
def range? : Primitive → Option (Int × Int)
  | .u8 => some (0, 255)
  | .u16 => some (0, 65535)
  | .u32 => some (0, 4294967295)
  | .u64 => some (0, 18446744073709551615)
  | .i8 => some (-128, 127)
  | .i16 => some (-32768, 32767)
  | .i32 => some (-2147483648, 2147483647)
  | .i64 => some (-9223372036854775808, 9223372036854775807)
  | _ => none

/-- Whether `value` lies in the range of an integer primitive; false for every other primitive. -/
def fits (p : Primitive) (value : Int) : Bool :=
  match p.range? with
  | some (least, greatest) => decide (least ≤ value) && decide (value ≤ greatest)
  | none => false

/-- Conversion without a cast. Integers widen within their signedness, an unsigned integer widens into
a strictly wider signed one, every integer converts to every float, and `f32` widens to `f64`. Any
other primitive only converts to itself. -/
def coercesTo (source target : Primitive) : Bool :=
  if source = target then true
  else match source.width?, target.width? with
    | some w, some v =>
      if source.isInteger && target.isFloat then true
      else if source = .f32 && target = .f64 then true
      else if source.isFloat then false
      else if source.isSigned == target.isSigned then decide (w ≤ v)
      else if source.isUnsigned && target.isSigned then decide (w < v)
      else false
    | _, _ => false

/-- The numeric type two numeric operands meet in: one of them when the other converts to it, else the
narrowest signed integer both convert to, else `f64`. -/
def widen (a b : Primitive) : Option Primitive :=
  if !a.isNumeric || !b.isNumeric then none
  else if a.coercesTo b then some b
  else if b.coercesTo a then some a
  else
    let candidates := if a.isInteger && b.isInteger then [.i16, .i32, .i64] else [.f64]
    some ((candidates.find? fun c => a.coercesTo c && b.coercesTo c).getD .f64)

/-- The kind of an integer literal that nothing else fixes: the preferred kind when the value fits it,
else the first of `i64` and `u64` that holds it, else `u64`. -/
def defaultInteger (value : Int) (preferred : Primitive) : Primitive :=
  ([preferred, .i64, .u64].find? (·.fits value)).getD .u64

end Primitive

end Ascribe
