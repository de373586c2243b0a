import Ascribe.Ty.Generics
import Ascribe.Ty.Same

/-!
# Solving generic parameters

`solveGenerics` finds types for the generic parameters of a signature by matching parameter types
against argument types. A parameter met twice takes a type both occurrences fit: numbers widen, and
`null` makes the type nullable. A parameter nothing fixes becomes `never`.
-/

namespace Ascribe

/-- Give a parameter one more type it must accept. -/
def Bindings.accept (solved : Bindings) (name : String) (arg : Ty) : Bindings :=
  match solved.get? name with
  | none => solved.insert name arg
  | some known =>
    if known == arg then solved
    else if known.isNull then solved.insert name (.nullable arg)
    else if arg.isNull then solved.insert name (.nullable known)
    else match known.primitive?, arg.primitive? with
      | some p, some q =>
        if p.coercesTo q then solved.insert name arg
        else if q.coercesTo p then solved
        else match p.widen q with
          | some r => solved.insert name (.prim r)
          | none => solved
      | _, _ => solved

/-- Matching one type against an argument, carrying the bindings found so far. -/
abbrev Matcher := Ty → Bindings → Bindings

namespace Ty

/-- Match types against arguments position by position. -/
def matchAll : List Matcher → List Ty → Bindings → Bindings
  | m :: ms, arg :: args, solved => matchAll ms args (m arg solved)
  | _, _, solved => solved

/-- Match fields against the fields of the same name. -/
def matchFields (fields : List (Field Matcher)) (body : StructBody Ty) (solved : Bindings) : Bindings :=
  fields.foldl (fun solved field => match body.field? field.name with
    | some found => field.type found.type solved
    | none => solved) solved

/-- One layer of matching. Arguments of type `never` and errors fix nothing. -/
def solveStep (names : List String) (parts : Shape Matcher) (arg : Ty) (solved : Bindings) : Bindings :=
  if arg.isNever || arg.isError then solved
  else match parts, arg.shape with
    | .generic g, _ => if names.contains g.name then solved.accept g.name arg else solved
    | .array p, .array a => p a solved
    | .nullable p, .nullable a => p a solved
    | .nullable _, .prim .null => solved
    | .nullable p, _ => p arg solved
    | .tuple ps, .tuple as => matchAll ps as solved
    | .ref p, .ref a => if p.decl = a.decl then matchAll p.args a.args solved else solved
    | .ref p, .constructed c =>
      if c.decl = some p.decl then matchAll p.args c.args solved else solved
    | .struct p, .struct a => matchFields p.fields a solved
    | .fn p, .fn a =>
      p.result a.result (matchAll (p.params.map (·.type)) a.paramTypes solved)
    | _, _ => solved

/-- Match a type against an argument, adding to the bindings found so far. -/
def solve (names : List String) (t : Ty) : Matcher :=
  t.foldWith fun _ => solveStep names

end Ty

/-- Hand the solutions out in the order of the names. A name listed twice has been handed out by its
second turn. -/
def Bindings.inOrder : List String → Bindings → List (String × Ty)
  | [], _ => []
  | name :: names, solved =>
    (name, (solved.get? name).getD .never) :: inOrder names (solved.without (· == name))

/-- Types for the named generic parameters under which the parameter types match the arguments. -/
def solveGenerics (names : List String) (params args : List Ty) : Bindings :=
  Table.ofList (Bindings.inOrder names (Ty.matchAll (params.map (Ty.solve names)) args ∅))

end Ascribe
