import Ascribe.Typing.Queries

/-!
# Names

A name in an expression has the type of its declaration; the name of a type stands for that type without
arguments. A name in a type is a named type, or the generic parameter it points at. `this` is the class
around it, at its own generic parameters.
-/

namespace Ascribe.Typing

variable (p : Tree) (q : Queries)

/-- The type of a name in an expression. -/
def nameType (n : NameForm) : Infer Ty := do
  match n.target with
  | none => return .error (.unresolvedName n.name)
  | some target =>
    match ← Search.ofWalk (p.form target) with
    | .typeDecl d => return .reference target d.name []
    | .genericParam .. => return .error (.notAValue n.name)
    | .pending => return .error .incompleteNode
    | _ => q.typeOf target

/-- The type a name in a type stands for. -/
def referenceType (n : NameForm) (args : List NodeId) : Infer Ty := do
  match n.target with
  | none => return .error (.unresolvedName n.name)
  | some target =>
    match ← Search.ofWalk (p.form target) with
    | .typeDecl d => return .reference target d.name (← q.typesOf args)
    | .genericParam .. =>
      if args.isEmpty then q.typeOf target
      else return .error (.genericArity n.name 0 args.length)
    | _ => return .error (.notAType n.name)

/-- Whether a form is a class type. -/
def isClassType : Form → Bool
  | .classType _ => true
  | _ => false

/-- The type of `this`. -/
def thisType (node : NodeId) : Infer Ty := do
  let cls ← Search.ofWalk (p.nearest isClassType node)
  match cls.bind p.parent? with
  | some decl =>
    match p.form? decl with
    | some (.typeDecl d) => return .reference decl d.name (← q.typesOf d.generics)
    | _ => return .error (.thisOutsideClass "this")
  | none => return .error (.thisOutsideClass "this")

end Ascribe.Typing
