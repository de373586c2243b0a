import Ascribe.MethodNames
import Ascribe.Problem
import Ascribe.Tree.Form

/-!
# Shapes

One layer of a type. `Shape α` says how a type is put together from parts of type `α`: types themselves
(`Shape Ty`), their texts, or functions still to be applied. Everything a type carries besides its parts
(names, flags, back-references to the nodes of a tree) is in the shape.

`Shape.mapUnder` maps a function over the parts. The function is told which generic parameters are bound
where the part stands: those of the signature around it, since a signature binds its own generic
parameters in its parameters, its result and its constraints.
-/

namespace Ascribe

/-- A named part: a field of a struct or a parameter of a variant constructor. -/
structure Field (α : Type) where
  name : String
  type : α
  origin : Option NodeId := none

/-- An attribute of a class. -/
structure Attribute (α : Type) where
  name : String
  type : α
  isStatic : Bool := false
  isConst : Bool := false
  isLocal : Bool := false
  origin : Option NodeId := none

/-- A parameter of a signature. -/
structure Param (α : Type) where
  name : String
  type : α
  isMut : Bool := false

/-- A generic parameter, which stands for a type not yet known, and the bound it must meet. -/
structure Generic (α : Type) where
  name : String
  constraint : Option α := none

/-- What a function takes and gives. Its generic parameters are bound inside it. -/
structure Signature (α : Type) where
  params : List (Param α) := []
  result : α
  generics : List (Generic α) := []
  kind : FnKind := .plain

/-- A method of a class or an interface. -/
structure Method (α : Type) where
  names : MethodNames
  signature : Signature α
  isStatic : Bool := false
  origin : Option NodeId := none

/-- A struct type; an anonymous one comes from a literal. -/
structure StructBody (α : Type) where
  fields : List (Field α)
  isAnonymous : Bool := false

/-- A class type. -/
structure ClassBody (α : Type) where
  attributes : List (Attribute α) := []
  methods : List (Method α) := []
  /-- The interfaces it is declared below. -/
  supers : List α := []
  /-- The interfaces it implements in blocks of their own. -/
  impls : List α := []

/-- An interface type. -/
structure InterfaceBody (α : Type) where
  methods : List (Method α) := []
  supers : List α := []

/-- One constructor of a variant type. -/
structure VariantCase (α : Type) where
  name : String
  params : List (Field α) := []
  origin : Option NodeId := none

/-- A single constructor of a variant, seen as a type below that variant. -/
structure Constructed (α : Type) where
  /-- The declaration of the variant, when known. -/
  decl : Option NodeId := none
  variantName : String
  /-- The variant it belongs to, at the generic arguments below. -/
  variant : α
  name : String
  /-- Arguments for the generic parameters of the variant; empty while they are open. -/
  args : List α := []
  params : List (Field α) := []

/-- A case of an enumeration. -/
structure EnumCase where
  name : String
  value : Option Int := none
  origin : Option NodeId := none

/-- An enumeration and the integer type that represents its cases. -/
structure EnumBody where
  cases : List EnumCase
  repr : Primitive

/-- A named type: a declaration applied to generic arguments. -/
structure Reference (α : Type) where
  decl : NodeId
  name : String
  args : List α := []

/-- What a table of built-in members belongs to. -/
inductive PrototypeTarget where
  | array | coroutine
  deriving DecidableEq, Repr

/-- A built-in member. -/
structure BuiltIn (α : Type) where
  name : String
  type : α

/-- A table of built-in members. -/
structure PrototypeBody (α : Type) where
  target : PrototypeTarget
  members : List (BuiltIn α)

/-- The type of what cannot be typed. -/
structure Failure (α : Type) where
  problem : Problem
  /-- What was expected instead, when that helps. -/
  expected : Option α := none

/-- One layer of a type over parts of type `α`. -/
inductive Shape (α : Type) where
  | prim (p : Primitive)
  | array (elem : α)
  | nullable (base : α)
  | union (members : List α)
  | join (members : List α)
  | tuple (elems : List α)
  | struct (body : StructBody α)
  | cls (body : ClassBody α)
  | interface (body : InterfaceBody α)
  | variant (cases : List (VariantCase α))
  | constructed (c : Constructed α)
  | enum (body : EnumBody)
  | stringEnum (cases : List String)
  | fn (s : Signature α)
  | coroutine (s : Signature α)
  | generic (g : Generic α)
  | ref (r : Reference α)
  | prototype (body : PrototypeBody α)
  | error (e : Failure α)

variable {α β : Type}

namespace Signature

/-- The names of the generic parameters a signature binds. -/
def genericNames (s : Signature α) : List String :=
  s.generics.map (·.name)

def paramTypes (s : Signature α) : List α :=
  s.params.map (·.type)

/-- The parts of a signature: its parameters, its result and the constraints of its generic parameters. -/
def parts (s : Signature α) : List α :=
  s.paramTypes ++ s.result :: s.generics.filterMap (·.constraint)

/-- Map the parts of a signature, which all stand under its generic parameters. -/
def mapUnder (f : List String → α → β) (s : Signature α) : Signature β where
  params := s.params.map fun p => { p with type := f s.genericNames p.type }
  result := f s.genericNames s.result
  generics := s.generics.map fun g => { g with constraint := g.constraint.map (f s.genericNames) }
  kind := s.kind

end Signature

/-- The first field with a name. -/
def StructBody.field? (body : StructBody α) (name : String) : Option (Field α) :=
  body.fields.find? (·.name == name)

/-- The first attribute with a name. -/
def ClassBody.attribute? (body : ClassBody α) (name : String) : Option (Attribute α) :=
  body.attributes.find? (·.name == name)

/-- The first method that answers to a name. -/
def ClassBody.method? (body : ClassBody α) (name : String) : Option (Method α) :=
  body.methods.find? (·.names.contains name)

/-- The first built-in member with a name. -/
def PrototypeBody.member? (body : PrototypeBody α) (name : String) : Option (BuiltIn α) :=
  body.members.find? (·.name == name)

namespace Shape

/-- The parts of a shape, in the order in which they are written down. -/
def parts : Shape α → List α
  | .prim _ | .enum _ | .stringEnum _ => []
  | .array part | .nullable part => [part]
  | .union types | .join types | .tuple types => types
  | .struct body => body.fields.map (·.type)
  | .cls body =>
    body.attributes.map (·.type) ++ body.methods.flatMap (·.signature.parts) ++ body.supers ++ body.impls
  | .interface body => body.methods.flatMap (·.signature.parts) ++ body.supers
  | .variant cases => cases.flatMap fun c => c.params.map (·.type)
  | .constructed c => c.variant :: c.args ++ c.params.map (·.type)
  | .fn s | .coroutine s => s.parts
  | .generic g => g.constraint.toList
  | .ref r => r.args
  | .prototype body => body.members.map (·.type)
  | .error e => e.expected.toList

/-- Map the types of fields. -/
def mapFields (f : α → β) (fields : List (Field α)) : List (Field β) :=
  fields.map fun x => { x with type := f x.type }

/-- Map the parts of the signatures of methods. -/
def mapMethods (f : List String → α → β) (methods : List (Method α)) : List (Method β) :=
  methods.map fun m => { m with signature := m.signature.mapUnder f }

/-- Map every part, telling the function which generic parameters are bound where it stands. -/
def mapUnder (f : List String → α → β) : Shape α → Shape β
  | .prim p => .prim p
  | .array elem => .array (f [] elem)
  | .nullable base => .nullable (f [] base)
  | .union members => .union (members.map (f []))
  | .join members => .join (members.map (f []))
  | .tuple elems => .tuple (elems.map (f []))
  | .struct body => .struct { body with fields := mapFields (f []) body.fields }
  | .cls body => .cls {
      attributes := body.attributes.map fun a => { a with type := f [] a.type }
      methods := mapMethods f body.methods
      supers := body.supers.map (f [])
      impls := body.impls.map (f []) }
  | .interface body => .interface {
      methods := mapMethods f body.methods
      supers := body.supers.map (f []) }
  | .variant cases => .variant (cases.map fun c => { c with params := mapFields (f []) c.params })
  | .constructed c => .constructed { c with
      variant := f [] c.variant
      args := c.args.map (f [])
      params := mapFields (f []) c.params }
  | .enum body => .enum body
  | .stringEnum cases => .stringEnum cases
  | .fn s => .fn (s.mapUnder f)
  | .coroutine s => .coroutine (s.mapUnder f)
  | .generic g => .generic { g with constraint := g.constraint.map (f []) }
  | .ref r => .ref { r with args := r.args.map (f []) }
  | .prototype body => .prototype { body with
      members := body.members.map fun m => { m with type := f [] m.type } }
  | .error e => .error { e with expected := e.expected.map (f []) }

/-- Map every part. -/
def map (f : α → β) (s : Shape α) : Shape β :=
  s.mapUnder fun _ => f

theorem map_map {γ : Type} (f : α → β) (g : β → γ) (s : Shape α) :
    (s.map f).map g = s.map fun part => g (f part) := by
  cases s <;>
    simp [map, mapUnder, mapFields, mapMethods, Signature.mapUnder, Function.comp_def]

/-- `parts` of a mapped shape are the mapped `parts`. -/
theorem parts_map (f : α → β) (s : Shape α) : (s.map f).parts = s.parts.map f := by
  have option (a : Option α) : (a.map f).toList = a.toList.map f := by
    cases a <;> rfl
  have signature (s : Signature α) : (s.mapUnder fun _ => f).parts = s.parts.map f := by
    simp [Signature.parts, Signature.paramTypes, Signature.mapUnder, Function.comp_def,
      List.filterMap_map, List.map_filterMap]
  cases s <;>
    simp [map, mapUnder, mapFields, mapMethods, parts, option, signature, Function.comp_def,
      List.map_flatMap, List.flatMap_map]

end Shape

end Ascribe
