import Ascribe.Typing.Queries

/-!
# The common type of branches

The type of a value that comes from one of several branches. Branches of type `never` contribute nothing, a
`null` branch makes the result nullable, and an error is passed on. Branches that are still open further out
are left aside as long as another one is known.
-/

namespace Ascribe

/-- What a branch contributes to the common type, apart from its null. -/
def branchCandidate? (t : Ty) : Option Ty :=
  match t.shape with
  | .prim .never | .prim .null => none
  | .nullable base => some base
  | _ => some t

namespace Queries

variable (q : Queries)

/-- The common type of branches. -/
def commonType (types : List Ty) : Infer Ty := do
  let known := types.filter fun t => !t.isPlaceholder
  if known.isEmpty then return types.head?.getD .never
  match known.find? (·.isError) with
  | some failed => return failed
  | none =>
    let isNullable := known.any fun t => t.isNull || t.isNullable
    let candidates := known.filterMap branchCandidate?
    if candidates.isEmpty then return if isNullable then .null else .never
    match ← q.common candidates with
    | some t => return if isNullable then .nullable t else t
    | none => return .error (.noCommonType (known.map Ty.text))

end Queries

namespace Typing

variable (q : Queries)

/-- A field that every struct has, at the common type of its occurrences. -/
def sharedField (others : List (StructBody Ty)) (field : Field Ty) : Infer (Option (Field Ty)) := do
  match others.mapM (·.field? field.name) with
  | none => return none
  | some found =>
    return (← q.common (field.type :: found.map (·.type))).map fun t => { field with type := t }

/-- The struct of the fields that some structs share. -/
def commonStruct : List (StructBody Ty) → Infer (Option Ty)
  | [] => return none
  | head :: others => do
    let fields ← head.fields.filterMapM (sharedField q others)
    return if fields.isEmpty then none else some (.struct fields true)

/-- The generic arguments that some constructors have in common, position by position: `never` leaves a
position to the others. -/
def commonArguments (constructors : List (Constructed Ty)) : List Nat → Infer (Option (List Ty))
  | [] => return some []
  | slot :: slots => do
    let given := (constructors.filterMap fun c => c.args[slot]?).filter fun t => !t.isNever
    let arg ← if given.isEmpty then pure (some .never) else q.common given
    match arg with
    | none => return none
    | some t => return (← commonArguments constructors slots).map (t :: ·)

/-- The variant that some of its constructors have in common. -/
def commonVariant : List (Constructed Ty) → Infer (Option Ty)
  | [] => return none
  | head :: others =>
    match head.decl with
    | none => return none
    | some decl => do
      if others.any fun c => c.decl != some decl then return none
      let arity := ((head :: others).map (·.args.length)).foldl max 0
      let args ← commonArguments q (head :: others) (List.range arity)
      return args.map (.reference decl head.variantName ·)

/-- A type that each candidate is assignable to: one of them if it will do, else the wider number type, the
shared part of structs, or the variant of constructors. -/
def common (candidates : List Ty) : Infer (Option Ty) := do
  match candidates with
  | [] => return none
  | first :: rest =>
    if rest.all (· == first) then return some first
    match ← candidates.findM? fun c => candidates.allM fun other => q.assignable other c with
    | some widest => return some widest
    | none =>
      let resolved ← candidates.mapM q.resolveDeep
      match resolved.mapM Ty.primitive? with
      | some (head :: others) => return (others.foldlM Primitive.widen head).map .prim
      | _ =>
        match resolved.mapM Ty.structBody? with
        | some bodies => commonStruct q bodies
        | none =>
          match resolved.mapM Ty.constructed? with
          | some constructors => commonVariant q constructors
          | none => return none

end Typing

end Ascribe
