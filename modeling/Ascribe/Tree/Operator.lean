/-!
# Operators and kinds

The closed vocabularies a tree is written in: binary and unary operators, the two kinds of function,
the kinds of variable and the kinds of cast.
-/

namespace Ascribe

/-- A binary operator. -/
inductive BinaryOp where
  | add | sub | mul | div | mod
  | bitAnd | bitOr | bitXor | shl | shr
  | eq | notEq | lt | ltEq | gt | gtEq
  | and | or
  /-- The left operand unless it is null, else the right one. -/
  | coalesce
  deriving DecidableEq, Repr

namespace BinaryOp

def symbol : BinaryOp → String
  | .add => "+" | .sub => "-" | .mul => "*" | .div => "/" | .mod => "%"
  | .bitAnd => "&" | .bitOr => "|" | .bitXor => "^" | .shl => "<<" | .shr => ">>"
  | .eq => "==" | .notEq => "!=" | .lt => "<" | .ltEq => "<=" | .gt => ">" | .gtEq => ">="
  | .and => "&&" | .or => "||" | .coalesce => "??"

def isArithmetic : BinaryOp → Bool
  | .add | .sub | .mul | .div | .mod => true
  | _ => false

def isBitwise : BinaryOp → Bool
  | .bitAnd | .bitOr | .bitXor | .shl | .shr => true
  | _ => false

def isComparison : BinaryOp → Bool
  | .eq | .notEq | .lt | .ltEq | .gt | .gtEq => true
  | _ => false

end BinaryOp

/-- A unary operator. -/
inductive UnaryOp where
  | neg | not | bitNot
  deriving DecidableEq, Repr

/-- The symbol of a unary operator. -/
def UnaryOp.symbol : UnaryOp → String
  | .neg => "-" | .not => "!" | .bitNot => "~"

/-- Whether a function is plain or can be run as a coroutine. -/
inductive FnKind where
  | plain | coroutine
  deriving DecidableEq, Repr, Inhabited

/-- The keyword that introduces a function of a kind. -/
def FnKind.keyword : FnKind → String
  | .plain => "fn" | .coroutine => "cfn"

/-- Whether a variable can be assigned again. -/
inductive VarKind where
  | mutable | constant
  deriving DecidableEq, Repr, Inhabited

/-- Whether a cast is taken as is, yields null on failure, or is forced. -/
inductive CastKind where
  | regular | safe | forced
  deriving DecidableEq, Repr, Inhabited

end Ascribe
