import Ascribe.Search
import Ascribe.Ty.Same

/-!
# Following named types

A named type may stand for another named type, and an interface may be declared below others. Both are
followed through a resolver, with a bound on the way: an alias chain is followed for at most
`maxAliasChain` steps, and at most one more super-interface is visited.
-/

namespace Ascribe

/-- Answers what a named type stands for. -/
abbrev Resolver (σ : Type) := Reference Ty → Search σ Ty

/-- The longest chain of aliases that is followed. -/
def maxAliasChain : Nat := 64

namespace Resolver

variable {σ : Type}

/-- Follow a chain of aliases for some steps, noting the declaration that named the last type. The chain
ends at a type that is not named, or that stands for itself. -/
def follow (resolve : Resolver σ) : Nat → Option NodeId → Ty → Search σ (Option NodeId × Ty)
  | 0, decl, t => return (decl, t)
  | steps + 1, decl, t =>
    match t.reference? with
    | none => return (decl, t)
    | some r => do
      let next ← resolve r
      if next == t then return (some r.decl, t)
      else follow resolve steps (some r.decl) next

/-- What a type stands for, and the declaration that named it. -/
def declared (resolve : Resolver σ) (t : Ty) : Search σ (Option NodeId × Ty) :=
  resolve.follow maxAliasChain none t

/-- What a type stands for. -/
def target (resolve : Resolver σ) (t : Ty) : Search σ Ty :=
  (·.2) <$> resolve.declared t

/-- The methods of the super-interfaces that are still pending, the next one first. A type that has been
seen is passed over; each visit uses up one of the visits left. -/
def inherited (resolve : Resolver σ) : Nat → List Ty → List Ty → Search σ (List (Method Ty))
  | 0, _, _ => return []
  | visits + 1, seen, pending =>
    match pending.dropWhile seen.contains with
    | [] => return []
    | t :: rest => do
      match (← resolve.target t).shape with
      | .interface body =>
        return body.methods
          ++ (← inherited resolve visits (t :: seen) (body.supers.reverse ++ rest))
      | _ => inherited resolve visits (t :: seen) rest

/-- The methods of an interface, its own first and then those it inherits. -/
def interfaceMethods (resolve : Resolver σ) (body : InterfaceBody Ty) : Search σ (List (Method Ty)) :=
  return body.methods ++ (← resolve.inherited (maxAliasChain + 1) [] body.supers.reverse)

end Resolver

end Ascribe
