import Ascribe.Problem
import Ascribe.Text.Line
import Ascribe.Tree.Basic

/-!
# Diagnostics

A problem at its place in the source, and its report: the headline with its code, the source line, and an
underline with a label.
-/

namespace Ascribe

/-- A problem at the node where it arose. -/
structure Diagnostic where
  problem : Problem
  span : Span := {}
  node : NodeId := 0
  /-- The text of the type that was expected instead, if known. -/
  expected : Option String := none

namespace Diagnostic

/-- A diagnostic in one line. -/
def text (d : Diagnostic) : String :=
  s!"type error at {d.span.start}:{d.span.stop}: {d.problem.message}"

/-- What the underline is labelled with. -/
def label (d : Diagnostic) : String :=
  match d.expected with
  | some expected => "expected " ++ expected
  | none => d.problem.message

/-- A place in a source text. Line and column are counted from one. -/
structure Place where
  number : Nat
  /-- The line, with the characters that end it. -/
  line : List Char
  column : Nat

/-- Find an offset in lines of which the first has the given number. The end of the text belongs to the last
line, and an offset beyond it is not found. -/
def locate (number offset : Nat) : List (List Char) → Option Place
  | [] => none
  | [line] => if offset ≤ line.length then some ⟨number, line, offset + 1⟩ else none
  | line :: rest =>
    if offset < line.length then some ⟨number, line, offset + 1⟩
    else locate (number + 1) (offset - line.length) rest

/-- A character several times over. -/
def run (c : Char) (count : Nat) : String :=
  String.ofList (List.replicate count c)

/-- The source line with the span underlined and labelled. The line is shown without the blanks at its end; an
empty span has a bar in place of an underline. -/
def excerpt (d : Diagnostic) (margin : String) (place : Place) : List String :=
  let width := d.span.stop - d.span.start
  let half := width / 2
  let lead := margin ++ "│ " ++ run ' ' (place.column - 1)
  let underline :=
    if width = 0 then "│ " else run '─' half ++ "┬" ++ run '─' (width - half - 1) ++ "  "
  [ " " ++ toString place.number ++ " │ " ++ String.ofList (Text.trimEnd place.line),
    lead ++ underline,
    lead ++ run ' ' half ++ "╰" ++ run '─' (width - half + 1) ++ " " ++ d.label ]

/-- The lines below the headline, for a span inside one source line: the place, and an excerpt of the source.
A span that goes beyond the end of its line is not shown, and a gap stands for the excerpt. -/
def frame (d : Diagnostic) (file : String) (place : Place) : List String :=
  let digits := (toString place.number).length
  let margin := run ' ' (digits + 2)
  let isInside := place.column - 1 + (d.span.stop - d.span.start) ≤ place.line.length
  [margin ++ s!"╭─[ {file}:{place.number}:{place.column} ]", margin ++ "│"]
    ++ (if isInside then d.excerpt margin place else [margin ++ "│ "])
    ++ [run '─' (digits + 2) ++ "╯"]

/-- The place of a span in a source text, unless its first or last character lies beyond the end of the text.
The end itself counts as a place. -/
def place? (d : Diagnostic) (source : String) : Option Place := do
  let lines := Text.lines source.toList
  let first ← locate 1 d.span.start lines
  let _ ← locate 1 (d.span.stop - 1) lines
  return first

/-- The report over a source text. A span beyond the source has no place to show. -/
def report (d : Diagnostic) (file source : String) : String :=
  let headline := s!"[{d.problem.code}] Error: {d.problem.message}"
  let shown := ((d.place? source).map (d.frame file)).getD []
  "\n".intercalate (headline :: shown ++ [""])

end Diagnostic

end Ascribe
