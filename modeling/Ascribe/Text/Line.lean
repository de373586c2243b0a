import Ascribe.Text.Blank

/-!
# Lines of a text

A text as its lines, each with the characters that end it, so that an offset in the text can be found by the
lengths of the lines before it.
-/

namespace Ascribe.Text

/-- Whether a character ends a line: line feed, vertical tab, form feed, carriage return, next line, and the
line and paragraph separators. -/
def isLineEnd (c : Char) : Bool :=
  (decide (0x0A ≤ c.toNat) && decide (c.toNat ≤ 0x0D)) || [0x85, 0x2028, 0x2029].contains c.toNat

/-- The lines of a text that is not empty. A carriage return before a line feed does not end the line, the
line feed does. -/
def splitLines : List Char → List (List Char)
  | [] => []
  | c :: rest =>
    if isLineEnd c && !(c == '\r' && rest.head? == some '\n') then [c] :: splitLines rest
    else match splitLines rest with
      | [] => [[c]]
      | line :: others => (c :: line) :: others

/-- The lines of a text. The empty text is one empty line. -/
def lines (text : List Char) : List (List Char) :=
  match splitLines text with
  | [] => [[]]
  | lines => lines

/-- A text without the blanks at its end. -/
def trimEnd (text : List Char) : List Char :=
  (text.reverse.dropWhile isBlank).reverse

end Ascribe.Text
