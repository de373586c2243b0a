import Ascribe.Assignability.Cast
import Ascribe.Checker.State

/-!
# Queries

The questions a typing rule may ask. Rules are written against `Queries` and never call each other directly,
so each rule can be read, and reasoned about, for any answers it may get.
-/

namespace Ascribe

/-- The questions that answer each other. -/
structure Queries where
  /-- The type of a node. -/
  typeOf : NodeId → Infer Ty
  /-- What a named type stands for. -/
  resolve : Resolver Checker
  /-- The type that the place of a node asks for. -/
  expected : NodeId → Infer (Option Ty)
  /-- A type that every one of some types is assignable to. -/
  common : List Ty → Infer (Option Ty)
  /-- The type of a member of a value. -/
  member : Ty → String → Infer Ty
  /-- Whether one type is assignable to another, given what is assumed. -/
  compare : Assumptions → Ty → Ty → Infer Verdict

namespace Queries

/-- Every question is refused. -/
def exhausted : Queries where
  typeOf _ := Search.exhausted
  resolve _ := Search.exhausted
  expected _ := Search.exhausted
  common _ := Search.exhausted
  member _ _ := Search.exhausted
  compare _ _ _ := Search.exhausted

instance : Inhabited Queries := ⟨exhausted⟩

variable (q : Queries)

/-- The types of nodes, asked for in order. -/
def typesOf (nodes : List NodeId) : Infer (List Ty) :=
  nodes.mapM q.typeOf

/-- The type of an optional node. -/
def typeOf? (node : Option NodeId) : Infer (Option Ty) :=
  node.mapM q.typeOf

/-- The type of an optional node, or `void`. -/
def typeOrVoid (node : Option NodeId) : Infer Ty :=
  return (← q.typeOf? node).getD .void

/-- What a type stands for if it is named; any other type stands for itself. -/
def resolveDeep (t : Ty) : Infer Ty :=
  match t.reference? with
  | some r => q.resolve r
  | none => return t

/-- Comparison of types with these answers. -/
def comparer : Comparer Checker :=
  ⟨q.resolve, q.compare⟩

/-- Whether one type is assignable to another. -/
def assignable (actual expected : Ty) : Infer Bool :=
  q.comparer.assignable actual expected

/-- The methods of an interface, inherited ones included. -/
def interfaceMethods (body : InterfaceBody Ty) : Infer (List (Method Ty)) :=
  Resolver.interfaceMethods q.resolve body

/-- The type that the place of a node asks for, resolved and without its null. -/
def expectedResolved (node : NodeId) : Infer (Option Ty) := do
  match ← q.expected node with
  | some t => some <$> q.resolveDeep t.stripNullable
  | none => return none

/-- The signature of a method or function node; any other type becomes the result of one without
parameters. -/
def signatureOf (node : NodeId) : Infer (Signature Ty) := do
  let t ← q.typeOf node
  return t.signature?.getD { result := t }

end Queries

end Ascribe
