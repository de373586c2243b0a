/-!
# Problems

What can go wrong when a type is ascribed. A problem is a value: the type of a node that cannot be
typed is an error type that carries one. `Problem.message` is the only place that words them, and
`Problem.code` groups them for reports. Types are mentioned by their text.
-/

namespace Ascribe

/-- Why a node, a literal or a name has no proper type. -/
inductive Problem where
  /-- The type asked for is still being computed further out. -/
  | stillOpen
  | unresolvedName (name : String)
  | notAType (name : String)
  | notAValue (name : String)
  | memberNotFound (member type : String)
  | nullableAccess (member type : String)
  | notCallable (type : String)
  | notIndexable (type : String)
  | notInstantiable (type : String)
  | tupleIndexOutOfBounds (index : Nat) (type : String)
  | invalidOperands (op lhs rhs : String)
  | invalidOperand (op operand : String)
  | noCommonType (types : List String)
  | onlyNullKnown (name : String)
  | nothingKnown (name : String)
  | untypedParameter (name : String)
  | genericArity (name : String) (expected found : Nat)
  | notCoroutineFunction (type : String)
  | invalidLiteral (text : String)
  | literalOutOfRange (literal type : String)
  | referenceDepth (name : String)
  | thisOutsideClass (name : String)
  /-- The node was reserved and never filled. -/
  | incompleteNode
  deriving DecidableEq, Repr

namespace Problem

/-- The wording of a problem. -/
def message : Problem → String
  | .stillOpen => "type is still being computed"
  | .unresolvedName name => s!"unresolved name '{name}'"
  | .notAType name => s!"'{name}' does not name a type"
  | .notAValue name => s!"'{name}' does not name a value"
  | .memberNotFound member type => s!"member '{member}' not found on type {type}"
  | .nullableAccess member type =>
    s!"cannot access member '{member}' of nullable type {type} without optional chaining"
  | .notCallable type => s!"cannot call value of type {type}"
  | .notIndexable type => s!"cannot index value of type {type}"
  | .notInstantiable type => s!"cannot instantiate {type}"
  | .tupleIndexOutOfBounds index type => s!"tuple index {index} out of bounds for {type}"
  | .invalidOperands op lhs rhs => s!"operator '{op}' cannot be applied to {lhs} and {rhs}"
  | .invalidOperand op operand => s!"operator '{op}' cannot be applied to {operand}"
  | .noCommonType types => "no common type between " ++ ", ".intercalate types
  | .onlyNullKnown name => s!"cannot infer the type of '{name}' from null"
  | .nothingKnown name =>
    s!"cannot infer the type of '{name}' without an initializer or annotation"
  | .untypedParameter name => s!"parameter '{name}' requires a type annotation"
  | .genericArity name expected found =>
    s!"'{name}' expects {expected} generic argument(s), found {found}"
  | .notCoroutineFunction type => s!"'{type}' is not a coroutine function (declare it with cfn)"
  | .invalidLiteral text => s!"invalid numeric literal '{text}'"
  | .literalOutOfRange literal type => s!"literal {literal} does not fit in {type}"
  | .referenceDepth name => s!"type '{name}' expands too deeply"
  | .thisOutsideClass name => s!"'{name}' is only valid inside a class"
  | .incompleteNode => "syntax node was reserved but never filled"

/-- The stable short code of a problem in reports. -/
def code : Problem → String
  | .stillOpen => "T0000"
  | .unresolvedName _ | .notAType _ | .notAValue _ => "T0001"
  | .memberNotFound .. | .nullableAccess .. => "T0002"
  | .notCallable _ | .notIndexable _ | .notInstantiable _ | .tupleIndexOutOfBounds .. => "T0003"
  | .invalidOperands .. | .invalidOperand .. => "T0004"
  | .noCommonType _ => "T0005"
  | .onlyNullKnown _ | .nothingKnown _ | .untypedParameter _ => "T0006"
  | .genericArity .. => "T0007"
  | .notCoroutineFunction _ => "T0008"
  | .invalidLiteral _ | .literalOutOfRange .. => "T0009"
  | .referenceDepth _ => "T0010"
  | .thisOutsideClass _ => "T0011"
  | .incompleteNode => "T0012"

/-- Whether the problem only says that an outer computation is not finished. -/
def isPlaceholder : Problem → Bool
  | .stillOpen => true
  | _ => false

end Problem

end Ascribe
