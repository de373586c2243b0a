import Ascribe.Typing.Rules

/-!
# Answers

The rules answer each other's questions. `answers p depth references` answers questions that nest at most
`depth` deep, where `references` named types are being resolved around them: each question is answered by its
rule, which asks one level less. Going one level deeper never changes an answer that was found.
-/

namespace Ascribe

/-- The answers that can be found by going at most `depth` levels deep. -/
def answers (p : Tree) : Nat → Nat → Queries
  | 0, _ => .exhausted
  | depth + 1, references =>
    { typeOf := fun node => Typing.typeOf p (answers p depth references) node
      resolve := fun r => Typing.resolve p (answers p depth (references + 1)) references r
      expected := fun node => Typing.expected p (answers p depth references) node
      common := fun types => Typing.common (answers p depth references) types
      member := fun t name => Typing.instanceMember (answers p depth references) t name
      compare := fun assumed actual expected =>
        (answers p depth references).comparer.step assumed actual expected }

end Ascribe
