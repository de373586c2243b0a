import Ascribe.Ty.Generics

/-!
# Built-in members

Arrays and coroutines have members no declaration gives. They are written against one generic parameter,
which stands for the element of the array or the value the coroutine yields.
-/

namespace Ascribe.Prototype

/-- The generic parameter that built-in members are written against. -/
def elementName : String := "T"

def element : Ty :=
  .of (.generic ⟨elementName, none⟩)

def builtInMethod (params : List (String × Ty)) (result : Ty) : Ty :=
  .of (.fn { params := params.map fun (name, type) => { name, type }, result })

/-- The members of arrays. -/
def arrayMembers : List (BuiltIn Ty) :=
  [ ⟨"length", .prim .u64⟩,
    ⟨"push", builtInMethod [("value", element)] (.prim .u64)⟩,
    ⟨"pop", builtInMethod [] (.nullable element)⟩,
    ⟨"slice", builtInMethod [("start", .prim .u64), ("end", .prim .u64)] (.array element)⟩,
    ⟨"indexOf", builtInMethod [("value", element)] (.prim .i64)⟩,
    ⟨"contains", builtInMethod [("value", element)] .bool⟩,
    ⟨"reverse", builtInMethod [] (.array element)⟩,
    ⟨"clone", builtInMethod [] (.array element)⟩,
    ⟨"resize", builtInMethod [("size", .prim .u64)] .void⟩ ]

/-- The members of coroutines. -/
def coroutineMembers : List (BuiltIn Ty) :=
  [ ⟨"alive", .bool⟩,
    ⟨"state", .prim .u8⟩,
    ⟨"reset", builtInMethod [] .void⟩,
    ⟨"finish", builtInMethod [] .void⟩ ]

/-- The table of built-in members of a target. -/
def table : PrototypeTarget → PrototypeBody Ty
  | .array => ⟨.array, arrayMembers⟩
  | .coroutine => ⟨.coroutine, coroutineMembers⟩

/-- A built-in member by name, at the given element type. -/
def member? (target : PrototypeTarget) (name : String) (element : Ty) : Option Ty :=
  ((table target).member? name).map fun found =>
    found.type.substitute (Bindings.zip [elementName] [element])

/-- The names of the built-in members of a target, in order. -/
def memberNames (target : PrototypeTarget) : List String :=
  (table target).members.map (·.name)

end Ascribe.Prototype
