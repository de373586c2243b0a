import Ascribe.Text.Blank

/-!
# Symbols

The identifier-safe form of an instantiation key. The separators `<`, `,` and `::` become `$`, closing
brackets and blanks vanish, and every other character outside `[A-Za-z0-9_$]` becomes `_`. Adjacent
`$` are merged, so a symbol is its own symbol.
-/

namespace Ascribe.Instantiation

/-- Whether a character stands for itself in a symbol. -/
def isWordChar (c : Char) : Bool :=
  c.isAlphanum || c == '_'

/-- The characters a key contributes to its symbol, before adjacent separators are merged. -/
def symbolChars : List Char → List Char
  | [] => []
  | ':' :: ':' :: rest => '$' :: symbolChars rest
  | c :: rest =>
    if isWordChar c then c :: symbolChars rest
    else if c == '$' || c == '<' || c == ',' then '$' :: symbolChars rest
    else if c == '>' || Text.isBlank c then symbolChars rest
    else '_' :: symbolChars rest

/-- Merge each run of adjacent `$` into one. -/
def mergeSeparators : List Char → List Char
  | '$' :: '$' :: rest => mergeSeparators ('$' :: rest)
  | c :: rest => c :: mergeSeparators rest
  | [] => []

/-- The symbol of an instantiation key. -/
def symbolOf (key : String) : String :=
  String.ofList (mergeSeparators (symbolChars key.toList))

end Ascribe.Instantiation
