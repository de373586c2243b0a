import Ascribe.Table
import Ascribe.Ty.Basic

/-!
# Generic parameters

Bindings give types to generic parameters. `Ty.substitute` replaces every parameter they bind; a signature
that declares parameters of its own shadows outer bindings of the same name inside itself.
`Signature.instantiate` binds the parameters of a signature and drops them from it.
`Ty.hasGenerics` asks whether a parameter is left free.
-/

namespace Ascribe

/-- Types for generic parameters, in order. -/
abbrev Bindings := Table String Ty

namespace Bindings

/-- Pair names with types; surplus names or types are left out. -/
def zip (names : List String) (types : List Ty) : Bindings :=
  Table.ofList (names.zip types)

/-- The bindings that are still visible under generic parameters of the given names. -/
def shadow (bindings : Bindings) (names : List String) : Bindings :=
  bindings.without names.contains

end Bindings

namespace Ty

/-- One layer of a substitution: the parts are substitutions to come. -/
def substituteStep (t : Ty) (parts : Shape (Bindings → Ty)) (bindings : Bindings) : Ty :=
  if bindings.isEmpty then t
  else match parts with
    | .generic g =>
      match bindings.get? g.name, g.constraint with
      | some bound, _ => bound
      | none, some _ => replaced ()
      | none, none => t
    | .nullable base => nullable (base bindings)
    | .prim _ | .enum _ | .stringEnum _ | .error _ => t
    | _ => replaced ()
where
  /-- The type with every part replaced, each under the bindings visible where it stands. -/
  replaced (_ : Unit) : Ty :=
    ⟨parts.mapUnder fun own part => part (bindings.shadow own), t.origin⟩

/-- Replace the generic parameters that are bound. Without any binding the type is left untouched. -/
def substitute (t : Ty) (bindings : Bindings) : Ty :=
  t.foldWith substituteStep bindings

/-- One layer of the search for a free generic parameter, below the names that are bound. -/
def hasGenericsStep (parts : Shape (List String → Bool)) (bound : List String) : Bool :=
  match parts with
  | .generic g => !bound.contains g.name
  | .prim _ | .enum _ | .stringEnum _ | .error _ => false
  | .array part | .nullable part => part bound
  | .union types | .join types | .tuple types => types.any (· bound)
  | .struct body => body.fields.any (·.type bound)
  | .cls body => body.attributes.any (·.type bound) || body.methods.any (open? ·.signature)
  | .interface body => body.methods.any (open? ·.signature)
  | .variant cases => cases.any fun c => c.params.any (·.type bound)
  | .constructed c => c.args.any (· bound)
  | .fn s | .coroutine s => open? s
  | .ref r => r.args.any (· bound)
  | .prototype body => body.members.any (·.type bound)
where
  /-- A signature is open if a parameter or its result is, under its own generic parameters. -/
  open? (s : Signature (List String → Bool)) : Bool :=
    let inner := bound ++ s.genericNames
    s.params.any (·.type inner) || s.result inner

/-- Whether a generic parameter occurs free. The constraints of parameters are not looked at, nor the
interfaces a class or an interface is declared below. -/
def hasGenerics (t : Ty) : Bool :=
  t.foldWith (fun _ => hasGenericsStep) []

end Ty

namespace Signature

/-- Substitute inside a signature, below its own generic parameters. -/
def substitute (s : Signature Ty) (bindings : Bindings) : Signature Ty :=
  s.mapUnder fun own t => t.substitute (bindings.shadow own)

/-- Bind generic parameters of a signature and drop those from it. -/
def instantiate (s : Signature Ty) (bindings : Bindings) : Signature Ty :=
  { { s with generics := [] }.substitute bindings with
    generics := s.generics.filter fun g => !bindings.contains g.name }

end Signature

end Ascribe
