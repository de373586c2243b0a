import Ascribe.Literal.Integer
import Ascribe.Tree.Parts
import Ascribe.Ty.Prototype
import Ascribe.Typing.Name
import Ascribe.Typing.Operator

/-!
# Access

Members and elements. `Type.name` is a constructor, a case or a static member; `this.name` is read off the
class as it is written, so that a class can use its own members while its type is being found. Any other
member is looked up in the type of the value. A value that may be null needs an optional access somewhere in
its chain, and the result may then be null as well.
-/

namespace Ascribe.Typing

/-- The error of a member that is not there. -/
def memberNotFound (name : String) (t : Ty) : Ty :=
  .error (.memberNotFound name t.text)

/-- A method as the type of a member. -/
def methodType (m : Method Ty) : Ty :=
  (Ty.function m.signature).withOrigin? m.origin

/-- The instance member of a class: an attribute, else a method. -/
def classMember? (body : ClassBody Ty) (name : String) : Option Ty :=
  match body.attributes.find? fun a => a.name == name && !a.isStatic with
  | some a => some a.type
  | none => (body.methods.find? fun m => m.names.contains name && !m.isStatic).map methodType

variable (p : Tree) (q : Queries)

/-- The types of a member on each of several types, unless one has no such member. -/
def memberOfAll (name : String) : List Ty → Infer (Option (List Ty))
  | [] => return some []
  | t :: rest => do
    let found ← q.member t name
    if found.isError then return none
    return (← memberOfAll name rest).map (found :: ·)

/-- The type of a member on the first of several types that all answer, tried in order. -/
def memberOfSome (name : String) : List Ty → Infer (Option Ty)
  | [] => return none
  | t :: rest => do
    let found ← q.member t name
    if found.isError then memberOfSome name rest else return some found

/-- The type of a member of a value of type `t`. -/
def instanceMember (t : Ty) (name : String) : Infer Ty := do
  let resolved ← q.resolveDeep t
  match resolved.shape with
  | .array elem => return (Prototype.member? .array name elem).getD (memberNotFound name t)
  | .coroutine s => return (Prototype.member? .coroutine name s.result).getD (memberNotFound name t)
  | .struct body => return ((body.field? name).map (·.type)).getD (memberNotFound name t)
  | .constructed c => return ((c.params.find? (·.name == name)).map (·.type)).getD (memberNotFound name t)
  | .cls body => return (classMember? body name).getD (memberNotFound name t)
  | .interface body =>
    let methods ← q.interfaceMethods body
    return ((methods.find? (·.names.contains name)).map methodType).getD (memberNotFound name t)
  | .join members => return (← memberOfSome q name members).getD (memberNotFound name t)
  | .union members =>
    match ← memberOfAll q name members with
    | some found => q.commonType found
    | none => return memberNotFound name t
  | .generic g =>
    match g.constraint with
    | some bound => q.member bound name
    | none => return memberNotFound name t
  | .prim .any => return .any
  | .prim .string => return if name = "length" then .prim .u64 else memberNotFound name t
  | .error _ => return resolved
  | _ => return memberNotFound name t

/-- A constructor named through its variant. A constructor without parameters has nothing to fix the generic
arguments of the variant, so they are `never`. -/
def staticConstructor (constructor : NodeId) (generics : List NodeId) : Infer Ty := do
  let t ← q.typeOf constructor
  match t.shape with
  | .constructed c =>
    let names := p.genericNames generics
    if names.isEmpty || !c.params.isEmpty then return t
    let args := names.map fun _ => Ty.never
    return .of (.constructed { c with
      variant := c.variant.substitute (Bindings.zip names args), args, params := [] })
  | _ => return t

/-- Whether a form is a constructor of the given name. -/
def isConstructorNamed (name : String) : Option Form → Bool
  | some (.ctorDecl n _) => n == name
  | _ => false

/-- Whether a form is a case of the given name. -/
def isCaseNamed (name : String) : Option Form → Bool
  | some (.enumCase n _) => n == name
  | _ => false

/-- The member of a declared type: a constructor, a case or a static member. A declaration of another kind has
none of its own. -/
def declaredMember (decl : NodeId) (d : TypeDeclForm) (name : String) : Infer (Option Ty) := do
  let owner := Ty.reference decl d.name []
  let notFound := memberNotFound name owner
  match p.form? d.definition with
  | some (.variantType constructors) =>
    match constructors.find? fun c => isConstructorNamed name (p.form? c) with
    | some c => return some (← staticConstructor p q c d.generics)
    | none => return some notFound
  | some (.enumType cases _) =>
    return some (if cases.any fun c => isCaseNamed name (p.form? c) then owner else notFound)
  | some (.stringEnumType cases) => return some (if cases.contains name then owner else notFound)
  | some (.classType _) =>
    match p.classMember? d.definition name true with
    | some node => return some (← q.typeOf node)
    | none => return some notFound
  | _ => return none

/-- The member of a type named in an expression, if the base names one. -/
def staticMember (m : MemberForm) : Infer (Option Ty) := do
  match p.form? m.base with
  | some (.name n) =>
    match n.target with
    | none => return none
    | some decl =>
      match ← Search.ofWalk (p.form decl) with
      | .typeDecl d => declaredMember p q decl d m.name
      | _ => return none
  | _ => return none

/-- A member of `this`, read off the class it stands in. -/
def thisMember (m : MemberForm) : Infer (Option Ty) := do
  match p.form? m.base with
  | some .this =>
    match ← Search.ofWalk (p.nearest isClassType m.base) with
    | none => return none
    | some cls => q.typeOf? (p.classMember? cls m.name false)
  | _ => return none

/-- Whether a value that may be null is accessed optionally, here or further down its chain. -/
def accessIsOptional (base : NodeId) (optional : Bool) : Infer Bool :=
  if optional then return true else Search.ofWalk (p.inOptionalChain base)

/-- A member of a value. -/
def valueMember (m : MemberForm) : Infer Ty := do
  let base ← q.typeOf m.base
  if base.isError then return base
  let target ← q.resolveDeep base
  if target.isNullable then
    if ← accessIsOptional p m.base m.optional then
      let found ← q.member target.stripNullable m.name
      return if found.isError then found else found.nullable.withOrigin? found.origin
    else return .error (.nullableAccess m.name base.text)
  else q.member target m.name

/-- The type of an access to a member. -/
def memberType (m : MemberForm) : Infer Ty := do
  match ← staticMember p q m with
  | some t => return t
  | none =>
    match ← thisMember p q m with
    | some t => return t
    | none => valueMember p q m

/-- The largest index that can be reported. -/
def maxIndex : Nat := 18446744073709551615

/-- The element of a tuple at an index that must be written as a literal. -/
def tupleElement (base : Ty) (elems : List Ty) (index : NodeId) (position : Ty) : Ty :=
  match p.form? index with
  | some (.int text) =>
    match Literal.readInteger text with
    | .ok literal =>
      let i := if Primitive.u64.fits literal.value then literal.value.toNat else maxIndex
      (elems[i]?).getD (.error (.tupleIndexOutOfBounds i base.text))
    | .error _ => .error (.invalidOperands "[]" base.text position.text)
  | _ => .error (.invalidOperands "[]" base.text position.text)

/-- The element of a resolved type at an index. -/
def elementType (base target : Ty) (index : NodeId) (position : Ty) : Infer Ty := do
  match target.shape with
  | .array elem =>
    let position ← q.resolveDeep position
    return if position.isInteger || position.isAny || position.isError then elem
      else .error (.invalidOperands "[]" base.text position.text)
  | .tuple elems => return tupleElement p base elems index position
  | .prim .string => return .string
  | .prim .any => return .any
  | .cls _ =>
    match ← operatorMethod q target "[]" 1 with
    | some method => return method.result
    | none => return .error (.notIndexable base.text)
  | _ => return .error (.notIndexable base.text)

/-- The type of an access by index. -/
def indexType (i : IndexForm) : Infer Ty := do
  let base ← q.typeOf i.base
  if base.isError then return base
  let position ← q.typeOf i.index
  if position.isPlaceholder then return position
  let target ← q.resolveDeep base
  if target.isNullable then
    if ← accessIsOptional p i.base i.optional then
      let found ← elementType p q base (← q.resolveDeep target.stripNullable) i.index position
      return if found.isError then found else found.nullable
    else return .error (.nullableAccess "[]" base.text)
  else elementType p q base target i.index position

end Ascribe.Typing
