import Ascribe.Ty.Text

/-!
# Instantiation keys

The key of a generic declaration at some arguments: its name, and the texts of the arguments in angle
brackets when there are any.
-/

namespace Ascribe.Instantiation

/-- `name<arg, ...>`, or the bare name when there are no arguments. -/
def keyOf (name : String) (args : List Ty) : String :=
  if args.isEmpty then name
  else name ++ "<" ++ ", ".intercalate (args.map Ty.text) ++ ">"

end Ascribe.Instantiation
