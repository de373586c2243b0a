import Ascribe.Ty.Shape

/-!
# Types

A type is a shape over types, with an optional back-reference to the node it was derived from. The
back-reference serves diagnostics and navigation; no other operation looks at it.

`Ty.foldWith` is the one recursion over types: it gives the step the type itself, a context, and its shape
with every part ready to be folded under a context of its own. `Ty.fold` is the case without a context, where
every part is folded first. `Ty.foldWith_eq` and `Ty.fold_eq` are their computation rules. Traversals (texts,
substitution, free generic parameters) are folds, so they are written as one layer each.

`Ty.nullable` is the only constructor with a rule of its own: it never wraps a type that is nullable
already.
-/

namespace Ascribe

/-- A type with an optional back-reference to the node it was derived from. -/
structure Ty where
  shape : Shape Ty
  origin : Option NodeId

namespace Ty

/-! ## Folding -/

section Fold

variable {β γ : Type} (step : Ty → Shape (β → γ) → β → γ)

mutual

/-- Fold a type under a context. The step is given the parts as functions of the context they are to be
folded under, so a part the step does not ask for is not looked at. -/
def foldWith : Ty → β → γ
  | ⟨shape, origin⟩, context => step ⟨shape, origin⟩ (foldShape shape) context

/-- Fold the parts of a shape. -/
def foldShape : Shape Ty → Shape (β → γ)
  | .prim p => .prim p
  | .array elem => .array (foldWith elem)
  | .nullable base => .nullable (foldWith base)
  | .union members => .union (foldList members)
  | .join members => .join (foldList members)
  | .tuple elems => .tuple (foldList elems)
  | .struct ⟨fields, isAnonymous⟩ => .struct ⟨foldFields fields, isAnonymous⟩
  | .cls ⟨attributes, methods, supers, impls⟩ =>
    .cls ⟨foldAttributes attributes, foldMethods methods, foldList supers, foldList impls⟩
  | .interface ⟨methods, supers⟩ => .interface ⟨foldMethods methods, foldList supers⟩
  | .variant cases => .variant (foldCases cases)
  | .constructed ⟨decl, variantName, variant, name, args, params⟩ =>
    .constructed ⟨decl, variantName, foldWith variant, name, foldList args, foldFields params⟩
  | .enum body => .enum body
  | .stringEnum cases => .stringEnum cases
  | .fn s => .fn (foldSignature s)
  | .coroutine s => .coroutine (foldSignature s)
  | .generic ⟨name, constraint⟩ => .generic ⟨name, foldOption constraint⟩
  | .ref ⟨decl, name, args⟩ => .ref ⟨decl, name, foldList args⟩
  | .prototype ⟨target, members⟩ => .prototype ⟨target, foldBuiltIns members⟩
  | .error ⟨problem, expected⟩ => .error ⟨problem, foldOption expected⟩

/-- Fold a signature. -/
def foldSignature : Signature Ty → Signature (β → γ)
  | ⟨params, result, generics, kind⟩ =>
    ⟨foldParams params, foldWith result, foldGenerics generics, kind⟩

/-- Fold an optional part. -/
def foldOption : Option Ty → Option (β → γ)
  | none => none
  | some t => some (foldWith t)

/-- Fold a list of types. -/
def foldList : List Ty → List (β → γ)
  | [] => []
  | t :: rest => foldWith t :: foldList rest

/-- Fold the types of fields. -/
def foldFields : List (Field Ty) → List (Field (β → γ))
  | [] => []
  | ⟨name, type, origin⟩ :: rest => ⟨name, foldWith type, origin⟩ :: foldFields rest

/-- Fold the types of attributes. -/
def foldAttributes : List (Attribute Ty) → List (Attribute (β → γ))
  | [] => []
  | ⟨name, type, isStatic, isConst, isLocal, origin⟩ :: rest =>
    ⟨name, foldWith type, isStatic, isConst, isLocal, origin⟩ :: foldAttributes rest

/-- Fold the signatures of methods. -/
def foldMethods : List (Method Ty) → List (Method (β → γ))
  | [] => []
  | ⟨names, signature, isStatic, origin⟩ :: rest =>
    ⟨names, foldSignature signature, isStatic, origin⟩ :: foldMethods rest

/-- Fold the types of parameters. -/
def foldParams : List (Param Ty) → List (Param (β → γ))
  | [] => []
  | ⟨name, type, isMut⟩ :: rest => ⟨name, foldWith type, isMut⟩ :: foldParams rest

/-- Fold the constraints of generic parameters. -/
def foldGenerics : List (Generic Ty) → List (Generic (β → γ))
  | [] => []
  | ⟨name, constraint⟩ :: rest => ⟨name, foldOption constraint⟩ :: foldGenerics rest

/-- Fold the parameters of variant cases. -/
def foldCases : List (VariantCase Ty) → List (VariantCase (β → γ))
  | [] => []
  | ⟨name, params, origin⟩ :: rest => ⟨name, foldFields params, origin⟩ :: foldCases rest

/-- Fold the types of built-in members. -/
def foldBuiltIns : List (BuiltIn Ty) → List (BuiltIn (β → γ))
  | [] => []
  | ⟨name, type⟩ :: rest => ⟨name, foldWith type⟩ :: foldBuiltIns rest

end

theorem foldOption_eq (o : Option Ty) : foldOption step o = o.map (foldWith step) := by
  cases o <;> simp [foldOption]

theorem foldList_eq (ts : List Ty) : foldList step ts = ts.map (foldWith step) := by
  induction ts with
  | nil => simp [foldList]
  | cons t rest ih => simp [foldList, ih]

theorem foldFields_eq (fields : List (Field Ty)) :
    foldFields step fields = Shape.mapFields (foldWith step) fields := by
  induction fields with
  | nil => simp [foldFields, Shape.mapFields]
  | cons f rest ih => simp [foldFields, ih, Shape.mapFields]

theorem foldAttributes_eq (attributes : List (Attribute Ty)) :
    foldAttributes step attributes = attributes.map fun a => { a with type := foldWith step a.type } := by
  induction attributes with
  | nil => simp [foldAttributes]
  | cons a rest ih => simp [foldAttributes, ih]

theorem foldParams_eq (params : List (Param Ty)) :
    foldParams step params = params.map fun p => { p with type := foldWith step p.type } := by
  induction params with
  | nil => simp [foldParams]
  | cons p rest ih => simp [foldParams, ih]

theorem foldGenerics_eq (generics : List (Generic Ty)) :
    foldGenerics step generics =
      generics.map fun g => { g with constraint := g.constraint.map (foldWith step) } := by
  induction generics with
  | nil => simp [foldGenerics]
  | cons g rest ih => simp [foldGenerics, ih, foldOption_eq]

theorem foldSignature_eq (s : Signature Ty) :
    foldSignature step s = s.mapUnder fun _ => foldWith step := by
  obtain ⟨params, result, generics, kind⟩ := s
  simp [foldSignature, Signature.mapUnder, foldParams_eq, foldGenerics_eq]

theorem foldMethods_eq (methods : List (Method Ty)) :
    foldMethods step methods = Shape.mapMethods (fun _ => foldWith step) methods := by
  induction methods with
  | nil => simp [foldMethods, Shape.mapMethods]
  | cons m rest ih => simp [foldMethods, ih, Shape.mapMethods, foldSignature_eq]

theorem foldCases_eq (cases : List (VariantCase Ty)) :
    foldCases step cases =
      cases.map fun c => { c with params := Shape.mapFields (foldWith step) c.params } := by
  induction cases with
  | nil => simp [foldCases]
  | cons c rest ih => simp [foldCases, ih, foldFields_eq]

theorem foldBuiltIns_eq (members : List (BuiltIn Ty)) :
    foldBuiltIns step members = members.map fun m => { m with type := foldWith step m.type } := by
  induction members with
  | nil => simp [foldBuiltIns]
  | cons m rest ih => simp [foldBuiltIns, ih]

theorem foldShape_eq (shape : Shape Ty) : foldShape step shape = shape.map (foldWith step) := by
  cases shape <;>
    simp [foldShape, Shape.map, Shape.mapUnder, foldList_eq, foldFields_eq, foldAttributes_eq,
      foldMethods_eq, foldCases_eq, foldSignature_eq, foldOption_eq, foldBuiltIns_eq]

/-- `foldWith` applies its step to the type and to its shape with parts still to be folded. -/
theorem foldWith_eq (t : Ty) (context : β) :
    foldWith step t context = step t (t.shape.map (foldWith step)) context := by
  obtain ⟨shape, origin⟩ := t
  simp [foldWith, foldShape_eq]

end Fold

/-- Fold a type from its parts upwards. -/
def fold {α : Type} (step : Ty → Shape α → α) (t : Ty) : α :=
  t.foldWith (fun t parts (_ : Unit) => step t (parts.map fun part => part ())) ()

/-- `fold` applies its step to the type and to its shape with folded parts. -/
theorem fold_eq {α : Type} (step : Ty → Shape α → α) (t : Ty) :
    fold step t = step t (t.shape.map (fold step)) := by
  rw [fold, foldWith_eq, Shape.map_map]
  rfl

/-! ## Constructors -/

/-- A type without a back-reference. -/
def of (shape : Shape Ty) : Ty :=
  ⟨shape, none⟩

def prim (p : Primitive) : Ty := of (.prim p)
def never : Ty := prim .never
def null : Ty := prim .null
def void : Ty := prim .void
def bool : Ty := prim .bool
def string : Ty := prim .string
def any : Ty := prim .any

instance : Inhabited Ty := ⟨never⟩

def array (elem : Ty) : Ty := of (.array elem)
def union (members : List Ty) : Ty := of (.union members)
def join (members : List Ty) : Ty := of (.join members)
def tuple (elems : List Ty) : Ty := of (.tuple elems)

def struct (fields : List (Field Ty)) (isAnonymous : Bool) : Ty :=
  of (.struct ⟨fields, isAnonymous⟩)

def function (s : Signature Ty) : Ty := of (.fn s)
def coroutine (s : Signature Ty) : Ty := of (.coroutine s)

def reference (decl : NodeId) (name : String) (args : List Ty) : Ty :=
  of (.ref ⟨decl, name, args⟩)

/-- The type of what has a problem. -/
def error (problem : Problem) : Ty :=
  of (.error ⟨problem, none⟩)

/-- What a query sees when it comes back to a node whose type is still being computed. -/
def placeholder : Ty :=
  error .stillOpen

/-- The nullable form of a type. A type that is nullable already, `null`, `any` and errors stay as they
are. -/
def nullable (base : Ty) : Ty :=
  match base.shape with
  | .nullable _ | .error _ | .prim .null | .prim .any => base
  | _ => of (.nullable base)

/-- Attach the node a type was derived from. -/
def withOrigin (t : Ty) (node : NodeId) : Ty :=
  { t with origin := some node }

/-- Attach a node if there is one. -/
def withOrigin? (t : Ty) (node : Option NodeId) : Ty :=
  match node with
  | some node => t.withOrigin node
  | none => t

/-- Attach a node unless the type points at one already. -/
def orOrigin (t : Ty) (node : NodeId) : Ty :=
  match t.origin with
  | some _ => t
  | none => t.withOrigin node

/-! ## Views -/

def primitive? (t : Ty) : Option Primitive :=
  match t.shape with
  | .prim p => some p
  | _ => none

def isPrimitive (t : Ty) (p : Primitive) : Bool :=
  t.primitive? == some p

def isNever (t : Ty) : Bool := t.isPrimitive .never
def isNull (t : Ty) : Bool := t.isPrimitive .null
def isVoid (t : Ty) : Bool := t.isPrimitive .void
def isAny (t : Ty) : Bool := t.isPrimitive .any

def isNumeric (t : Ty) : Bool :=
  t.primitive?.any (·.isNumeric)

def isInteger (t : Ty) : Bool :=
  t.primitive?.any (·.isInteger)

def isNullable (t : Ty) : Bool :=
  match t.shape with
  | .nullable _ => true
  | _ => false

def problem? (t : Ty) : Option Problem :=
  match t.shape with
  | .error e => some e.problem
  | _ => none

def isError (t : Ty) : Bool :=
  t.problem?.isSome

def isPlaceholder (t : Ty) : Bool :=
  t.problem?.any (·.isPlaceholder)

def reference? (t : Ty) : Option (Reference Ty) :=
  match t.shape with
  | .ref r => some r
  | _ => none

def signature? (t : Ty) : Option (Signature Ty) :=
  match t.shape with
  | .fn s => some s
  | _ => none

def structBody? (t : Ty) : Option (StructBody Ty) :=
  match t.shape with
  | .struct body => some body
  | _ => none

def constructed? (t : Ty) : Option (Constructed Ty) :=
  match t.shape with
  | .constructed c => some c
  | _ => none

/-- The base of a nullable type, or the type itself. -/
def stripNullable (t : Ty) : Ty :=
  match t.shape with
  | .nullable base => base
  | _ => t

end Ty

end Ascribe
