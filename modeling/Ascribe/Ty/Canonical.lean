import Ascribe.Ty.Same

/-!
# Simplification

Unions and joins as flat sets. `Ty.simplify` splices nested unions into the union around them, keeps the
first of members that are the same, and collapses a union of one member to that member; joins likewise.
It looks through nullables and arrays, and at no other form.
-/

namespace Ascribe.Ty

/-- The first of each group of members that are the same, in order. -/
def distinct (members : List Ty) : List Ty :=
  members.foldl (fun kept t => if kept.contains t then kept else kept ++ [t]) []

/-- The members a type contributes to a union around it. -/
def unionMembers (t : Ty) : List Ty :=
  match t.shape with
  | .union members => members
  | _ => [t]

/-- The members a type contributes to a join around it. -/
def joinMembers (t : Ty) : List Ty :=
  match t.shape with
  | .join members => members
  | _ => [t]

/-- A union or join of some members: `never` for none, the member itself for one. -/
def collapse (wrap : List Ty → Shape Ty) (origin : Option NodeId) : List Ty → Ty
  | [] => never
  | [member] => member
  | members => ⟨wrap members, origin⟩

/-- One layer of simplification. The parts are given as simplifications still to be run: a form that is not
looked into keeps its parts as they are. -/
def simplifyStep (t : Ty) (parts : Shape (Unit → Ty)) (_ : Unit) : Ty :=
  match parts with
  | .union members => collapse .union t.origin (distinct (members.flatMap fun m => unionMembers (m ())))
  | .join members => collapse .join t.origin (distinct (members.flatMap fun m => joinMembers (m ())))
  | .nullable base => nullable (base ())
  | .array elem => ⟨.array (elem ()), t.origin⟩
  | _ => t

/-- Flatten nested unions and joins and drop members that are the same as an earlier one. -/
def simplify (t : Ty) : Ty :=
  t.foldWith simplifyStep ()

end Ascribe.Ty
