import Ascribe.Tree.Basic

/-!
# Searches

Questions about types are answered by searches: they read and extend a state, and they may give up with a
fault. Answers about recursive types come from recursion that follows the tree, not the structure of a
value, so every search counts how deep it may still go.
-/

namespace Ascribe

/-- A computation over a state that may give up. -/
abbrev Search (σ : Type) := StateT σ (Except Fault)

/-- How deep the questions that answer one question may nest, whatever they are about. It is there to make
the recursion end, and lies beyond what any search that ends by itself can reach in practice. -/
def depthLimit : Nat := 1000000000000

namespace Search

variable {σ α : Type}

/-- Give up because the search goes too deep. -/
def exhausted : Search σ α :=
  throw .tooDeep

/-- The answer of a walk over a tree. -/
def ofWalk (walk : Except Fault α) : Search σ α :=
  liftM walk

end Search

end Ascribe
