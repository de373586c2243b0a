import Ascribe.Ty.Basic

/-!
# The text of a type

The canonical text of a type. It never shows back-references. A union, a join or a function stands in
parentheses before a postfix `[]` or `?`; no other form needs them.
-/

namespace Ascribe

/-- The text of a type and whether it needs parentheses before a postfix. -/
structure Phrase where
  text : String
  isLoose : Bool := false

namespace Phrase

/-- A phrase that is worded when it is asked for. The text of a type leaves many of its parts out, and those
must not be worded: they can be far larger than what is shown. -/
abbrev Pending := Unit → Phrase

/-- The text of a pending phrase. -/
def Pending.text (p : Pending) : String :=
  (p ()).text

/-- The text as it stands before a postfix. -/
def asOperand (p : Phrase) : String :=
  if p.isLoose then "(" ++ p.text ++ ")" else p.text

/-- Texts with a separator between them. -/
def sep (separator : String) (phrases : List Pending) : String :=
  separator.intercalate (phrases.map (·.text))

/-- Items between a keyword's braces. -/
def braced (keyword separator : String) (items : List String) : String :=
  keyword ++ " \x7b" ++ separator.intercalate items ++ "\x7d"

/-- Generic arguments in angle brackets; nothing when there are none. -/
def arguments (args : List Pending) : String :=
  if args.isEmpty then "" else "<" ++ sep ", " args ++ ">"

def field (f : Field Pending) : String :=
  f.name ++ ": " ++ f.type.text

def param (p : Param Pending) : String :=
  (if p.isMut then "mut " else "") ++ p.name ++ ": " ++ p.type.text

/-- Generic names, parameters and result, without the keyword. -/
def signature (s : Signature Pending) : String :=
  (if s.generics.isEmpty then "" else "<" ++ ", ".intercalate s.genericNames ++ ">")
    ++ "(" ++ ", ".intercalate (s.params.map param) ++ ") -> " ++ s.result.text

/-- A signature after its keyword. -/
def function (s : Signature Pending) : String :=
  s.kind.keyword ++ signature s

def staticMark (isStatic : Bool) : String :=
  if isStatic then "static " else ""

def classAttribute (a : Attribute Pending) : String :=
  staticMark a.isStatic ++ a.name ++ ": " ++ a.type.text

def classMethod (m : Method Pending) : String :=
  staticMark m.isStatic ++ m.signature.kind.keyword ++ " " ++ m.names.text ++ signature m.signature

def interfaceMethod (m : Method Pending) : String :=
  "fn " ++ m.names.text ++ signature m.signature

def variantCase (c : VariantCase Pending) : String :=
  if c.params.isEmpty then c.name
  else c.name ++ "(" ++ ", ".intercalate (c.params.map field) ++ ")"

def enumCase (c : EnumCase) : String :=
  match c.value with
  | some value => c.name ++ " = " ++ toString value
  | none => c.name

def target : PrototypeTarget → String
  | .array => "array"
  | .coroutine => "coroutine"

/-- One layer of text. Parts that the text does not show are left unworded. -/
def ofShape : Shape Pending → Phrase
  | .prim p => { text := p.name }
  | .array elem => { text := (elem ()).asOperand ++ "[]" }
  | .nullable base => { text := (base ()).asOperand ++ "?" }
  | .union members => { text := sep " | " members, isLoose := true }
  | .join members => { text := sep " & " members, isLoose := true }
  | .tuple elems => { text := "(" ++ sep ", " elems ++ ")" }
  | .struct body => { text := braced "struct" ", " (body.fields.map field) }
  | .cls body =>
    { text := braced "class" "; " (body.attributes.map classAttribute ++ body.methods.map classMethod) }
  | .interface body => { text := braced "interface" "; " (body.methods.map interfaceMethod) }
  | .variant cases => { text := braced "variant" ", " (cases.map variantCase) }
  | .constructed c => { text := c.variantName ++ "." ++ c.name ++ arguments c.args }
  | .enum body => { text := braced ("enum as " ++ body.repr.name) ", " (body.cases.map enumCase) }
  | .stringEnum cases => { text := " | ".intercalate (cases.map fun c => "\"" ++ c ++ "\"") }
  | .fn s => { text := function s, isLoose := true }
  | .coroutine s => { text := "coroutine<" ++ function s ++ ">" }
  | .generic g => { text := g.name }
  | .ref r => { text := r.name ++ arguments r.args }
  | .prototype body => { text := "prototype<" ++ target body.target ++ ">" }
  | .error e => { text := "error<" ++ e.problem.message ++ ">" }

end Phrase

namespace Ty

/-- A type as a phrase. -/
def phrase (t : Ty) : Phrase :=
  t.foldWith (fun _ parts _ => Phrase.ofShape parts) ()

theorem phrase_eq (t : Ty) : t.phrase = Phrase.ofShape (t.shape.map fun part _ => part.phrase) := by
  rw [phrase, foldWith_eq]
  rfl

/-- The canonical text of a type. -/
def text (t : Ty) : String :=
  t.phrase.text

end Ty

/-- The canonical text of a signature, with its keyword. -/
def Signature.text (s : Signature Ty) : String :=
  Phrase.function (s.mapUnder fun _ t _ => t.phrase)

/-- The text of a field: its name and its type. -/
def Field.text (f : Field Ty) : String :=
  f.name ++ ": " ++ f.type.text

end Ascribe
