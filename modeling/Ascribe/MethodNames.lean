/-!
# Method names

A method answers to one or more names, which is how operators are overloaded: the first name is the
primary one, the others are aliases.
-/

namespace Ascribe

/-- The names of a method, never empty. -/
structure MethodNames where
  primary : String
  aliases : List String := []
  deriving DecidableEq, Repr, Inhabited

namespace MethodNames

/-- The names in a list, unless it is empty. -/
def ofList? : List String → Option MethodNames
  | [] => none
  | primary :: aliases => some ⟨primary, aliases⟩

def toList (names : MethodNames) : List String :=
  names.primary :: names.aliases

def contains (names : MethodNames) (name : String) : Bool :=
  names.toList.contains name

/-- Whether two methods share a name. -/
def overlaps (names other : MethodNames) : Bool :=
  names.toList.any other.contains

/-- The names separated by bars. -/
def text (names : MethodNames) : String :=
  "|".intercalate names.toList

end MethodNames

end Ascribe
