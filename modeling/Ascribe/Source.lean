/-!
# Places in source text

A span is a half-open range of offsets in one file.
-/

namespace Ascribe

/-- A range of offsets in a file, its end excluded. -/
structure Span where
  start : Nat := 0
  stop : Nat := 0
  file : Nat := 0
  deriving DecidableEq, Repr, Inhabited

namespace Span

/-- The least span that covers both; the file is that of the first. -/
def merge (a b : Span) : Span :=
  ⟨min a.start b.start, max a.stop b.stop, a.file⟩

end Span

end Ascribe
