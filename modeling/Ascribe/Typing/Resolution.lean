import Ascribe.Tree.Parts
import Ascribe.Ty.Generics
import Ascribe.Typing.Queries

/-!
# Resolution of named types

A named type stands for the definition of its declaration, with the declaration's generic parameters replaced
by the arguments. Aliases are followed to their end. What a named type stands for is computed once, unless the
computation came back to a node that was still open when it began.
-/

namespace Ascribe.Typing

variable (p : Tree) (q : Queries)

/-- What a named type stands for, computed from its declaration. -/
def expand (r : Reference Ty) : Infer Ty := do
  match ← Search.ofWalk (p.form r.decl) with
  | .typeDecl d =>
    let definition ← q.typeOf r.decl
    if definition.isPlaceholder then return definition
    let names := p.genericNames d.generics
    if !r.args.isEmpty && r.args.length ≠ names.length then
      return .error (.genericArity d.name names.length r.args.length)
    let resolved := definition.substitute (Bindings.zip names r.args)
    modify fun c => { c with resolutions := c.resolutions + 1 }
    match resolved.shape with
    | .cls _ =>
      if (← Infer.settings).logInstantiations then
        discard (Infer.logClass r.decl d.name r.args)
      return resolved
    | .ref next => q.resolve next
    | _ => return resolved
  | .genericParam .. => q.typeOf r.decl
  | _ => return .error (.notAType r.name)

/-- What a named type stands for, kept for the next time. `depth` named types are being resolved around this
one. -/
def resolve (depth : Nat) (r : Reference Ty) : Infer Ty := do
  let c ← get
  match c.resolved.get? r.key with
  | some t => return t
  | none =>
    if c.settings.maxReferenceDepth ≤ depth then return .error (.referenceDepth r.name)
    let (mark, memo) := c.memo.mark
    set { c with memo }
    let t ← expand p q r
    let c ← get
    let (leaked, memo) := c.memo.observedOutside mark
    if leaked || t.isPlaceholder then set { c with memo }
    else set { c with memo, resolved := c.resolved.insert r.key t }
    return t

end Ascribe.Typing
