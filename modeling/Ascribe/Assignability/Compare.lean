import Ascribe.Assignability.Aliases
import Ascribe.Assignability.Mismatch
import Ascribe.Ty.Size

/-!
# Comparing types

Whether a value of one type can be used where another is expected. Comparison is structural, except that
classes are told apart by their declarations. A pair of types that is already being compared further out is
assumed to hold, so recursive types are compared coinductively.

`Comparer.step` is one step: it compares two types given a comparison of their parts. `compareWithin`
iterates the step to a given depth. Without declarations a comparison only goes from types to their parts, so
`compareUnresolved` needs no more depth than the two types have parts.
-/

namespace Ascribe

/-- The pairs of texts that are being compared further out. -/
abbrev Assumptions := List (String × String)

/-- What one step of a comparison may use: a resolver, and the comparison of smaller questions. -/
structure Comparer (σ : Type) where
  resolve : Resolver σ
  compare : Assumptions → Ty → Ty → Search σ Verdict

namespace Comparer

variable {σ : Type}

def accept : Search σ Verdict :=
  return .ok ()

def reject (why : Mismatch) : Search σ Verdict :=
  return .error why

/-- Compare one after another; the first failure is the verdict. -/
def every {α : Type} (check : α → Search σ Verdict) : List α → Search σ Verdict
  | [] => accept
  | x :: rest => do
    match ← check x with
    | .ok () => every check rest
    | .error why => reject why

variable (c : Comparer σ) (assumed : Assumptions)

/-- Whether a comparison of parts succeeds. -/
def holds (actual expected : Ty) : Search σ Bool :=
  (·.holds) <$> c.compare assumed actual expected

/-- Elements and generic arguments must be the same if either is primitive; `never` fills any place. -/
def element (actual expected : Ty) : Search σ Bool :=
  if actual == expected || actual.isNever || expected.isError then return true
  else if actual.primitive?.isSome || expected.primitive?.isSome then return false
  else c.holds assumed actual expected

/-- Compare generic arguments one by one. -/
def arguments (actual expected : Ty) (args params : List Ty) : Search σ Verdict := do
  if args.length ≠ params.length then reject (.unlike actual expected)
  else
    match ← (args.zip params).findM? fun (a, e) => not <$> c.element assumed a e with
    | some (a, e) => reject (.argument actual expected a e)
    | none => accept

/-- Parameters are compared the other way round, results the same way round. -/
def signature (actual expected : Signature Ty) : Search σ Bool := do
  if actual.kind ≠ expected.kind || actual.params.length ≠ expected.params.length then return false
  else if ← (actual.params.zip expected.params).allM fun (a, e) => c.holds assumed e.type a.type then
    c.holds assumed actual.result expected.result
  else return false

/-- Every method of an interface needs an available method that shares a name and has a matching
signature. -/
def conforms (available : List (Method Ty)) (body : InterfaceBody Ty) : Search σ Verdict := do
  let required ← c.resolve.interfaceMethods body
  every (fun method => do
    let found ← available.anyM fun candidate =>
      if candidate.names.overlaps method.names then
        c.signature assumed candidate.signature method.signature
      else return false
    if found then accept else reject (.missingMethod method.names.primary method.signature)) required

/-- Every expected field needs a field of the same name and an assignable type. -/
def fields (actual expected : StructBody Ty) : Search σ Verdict :=
  every (fun field => do
    match actual.field? field.name with
    | none => reject (.missingField field.name)
    | some found =>
      return (← c.compare assumed found.type field.type).mapError (.field field.name)) expected.fields

/-- Every expected case needs a case of the same name with assignable parameters. -/
def cases (actual expected : Ty) (available required : List (VariantCase Ty)) : Search σ Verdict :=
  if available.length ≠ required.length then reject (.unlike actual expected)
  else every (fun case => do
    match available.find? (·.name == case.name) with
    | none => reject (.missingConstructor case.name)
    | some found =>
      if found.params.length ≠ case.params.length then reject (.unlike actual expected)
      else every (fun (a, e) => c.compare assumed a.type e.type) (found.params.zip case.params))
    required

/-- Accept if the comparison succeeds for one of several types. -/
def oneOf (actual expected : Ty) (check : Ty → Search σ Bool) (members : List Ty) :
    Search σ Verdict := do
  if ← members.anyM check then accept else reject (.unlike actual expected)

/-- Compare two types that are not named. -/
def structural (actual expected : Ty) : Search σ Verdict := do
  match actual.shape, expected.shape with
  | .prim a, .prim e => if a.coercesTo e then accept else reject (.unlike actual expected)
  | .generic g, _ =>
    match g.constraint with
    | some bound => c.compare assumed bound expected
    | none => reject (.unlike actual expected)
  | .union members, _ => every (fun m => c.compare assumed m expected) members
  | _, .union members => oneOf actual expected (c.holds assumed actual) members
  | _, .join members => every (c.compare assumed actual) members
  | .join members, _ => oneOf actual expected (fun m => c.holds assumed m expected) members
  | .array a, .array e =>
    if ← c.element assumed a e then accept else reject (.unlike actual expected)
  | .tuple as, .tuple es =>
    if as.length ≠ es.length then reject (.tupleLength actual expected es.length as.length)
    else every (fun (a, e) => c.compare assumed a e) (as.zip es)
  | .struct a, .struct e => c.fields assumed a e
  | .cls a, .interface e => c.conforms assumed (a.methods.filter fun m => !m.isStatic) e
  | .interface a, .interface e => do c.conforms assumed (← c.resolve.interfaceMethods a) e
  | .constructed a, .variant _ => c.compare assumed a.variant expected
  | .constructed a, .constructed e =>
    if a.variantName ≠ e.variantName || a.name ≠ e.name then reject (.unlike actual expected)
    else c.arguments assumed actual expected a.args e.args
  | .variant as, .variant es => c.cases assumed actual expected as es
  | .fn a, .fn e | .coroutine a, .coroutine e =>
    if ← c.signature assumed a e then accept else reject (.unlike actual expected)
  | _, _ => if actual.text == expected.text then accept else reject (.unlike actual expected)

/-- Compare what two types stand for, at least one of which is named. -/
def resolvedTypes (actual expected : Ty) : Search σ Verdict := do
  let (actualDecl, a) ← c.resolve.declared actual
  let (expectedDecl, e) ← c.resolve.declared expected
  match a.shape, e.shape with
  | .cls _, .cls _ =>
    if actualDecl.isSome && expectedDecl.isSome then
      if actualDecl ≠ expectedDecl then reject (.distinctClasses actual expected)
      else if a == e then accept
      else reject (.unlike actual expected)
    else unnamed a e
  | .ref _, _ | _, .ref _ => if a == e then accept else reject (.unlike actual expected)
  | _, _ => unnamed a e
where
  /-- Compare the types that were found, keeping the named types for the message. -/
  unnamed (a e : Ty) : Search σ Verdict := do
    if a == e then accept
    else return (← c.compare assumed a e).mapError (.resolved actual expected)

/-- Compare types at least one of which is named, assuming the pair while its parts are compared. -/
def named (actual expected : Ty) : Search σ Verdict :=
  let pair := (actual.text, expected.text)
  if assumed.contains pair then accept
  else c.resolvedTypes (pair :: assumed) actual expected

/-- Compare by structure, or through their declarations if one of the types is named. -/
def general (actual expected : Ty) : Search σ Verdict :=
  if actual.reference?.isNone && expected.reference?.isNone then c.structural assumed actual expected
  else c.named assumed actual expected

/-- One step of a comparison. -/
def step (actual expected : Ty) : Search σ Verdict :=
  if actual == expected then accept
  else if actual.isNever || actual.isError || expected.isError || expected.isAny then accept
  else match actual.shape, expected.shape with
    | .prim .null, .nullable _ => accept
    | .nullable a, .nullable e => c.compare assumed a e
    | _, .nullable e => c.compare assumed actual e
    | .nullable _, _ => reject (.mayBeNull actual expected)
    | .ref a, .ref e =>
      if a.decl = e.decl then c.arguments assumed actual expected a.args e.args
      else c.general assumed actual expected
    | .constructed a, .ref e =>
      if a.decl = some e.decl && a.args.length = e.args.length then
        c.arguments assumed actual expected a.args e.args
      else c.general assumed actual expected
    | _, _ => c.general assumed actual expected

end Comparer

/-- Compare two types with a resolver, going at most so deep. -/
def compareWithin {σ : Type} (resolve : Resolver σ) : Nat → Assumptions → Ty → Ty → Search σ Verdict
  | 0, _, _, _ => Search.exhausted
  | depth + 1, assumed, actual, expected =>
    Comparer.step ⟨resolve, compareWithin resolve depth⟩ assumed actual expected

/-- A comparer of a given depth over a resolver. -/
def Comparer.ofResolver {σ : Type} (resolve : Resolver σ) (depth : Nat) : Comparer σ :=
  ⟨resolve, compareWithin resolve depth⟩

/-- The resolver of types without declarations: a named type stands for itself. -/
def Resolver.unknown : Resolver Unit :=
  fun r => return .of (.ref r)

/-- Answer a question about two types and their parts, a named type standing for itself. The sizes of the
types bound how deep the question goes. They are measured only when it goes deeper than usual, since a type
that holds one part many times over is much larger than what is stored of it. -/
def askUnresolved {α : Type} (a b : Ty) (ask : Comparer Unit → Search Unit α) : Except Fault α :=
  match (ask (.ofResolver .unknown depthLimit)).run' () with
  | .error .tooDeep => (ask (.ofResolver .unknown (a.size + b.size))).run' ()
  | answer => answer

/-- Compare two types, a named type standing for itself. -/
def compareUnresolved (actual expected : Ty) : Except Fault Verdict :=
  askUnresolved actual expected fun c => c.compare [] actual expected

end Ascribe
