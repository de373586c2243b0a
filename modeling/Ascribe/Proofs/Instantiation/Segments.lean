import Mathlib.Tactic.SplitIfs
import Ascribe.Instantiation.Key
import Ascribe.Instantiation.Symbol
import Ascribe.Proofs.Ty.Parts

/-!
# The segments of a type

A symbol is read in segments, the pieces between its separators. `Instantiation.cut` gives the segments of a text on its
own. A text that is put together from others has the segments of its parts, one after the other; where no separator
stands between two parts, the last segment of the one and the first of the other are one (`Instantiation.glue`).

So the segments of a type can be found without its text: `Ty.segments` puts together the segments of its parts, whatever
the form of the type. It shows what a symbol keeps of a type. An argument list adds segments at the end and is not
closed, a union and a join are not told apart, and every other bracket, mark and postfix is an underscore.

## Key results

- `Instantiation.symbolChars_append`: only a colon before another one is read together with what comes next
- `Instantiation.cut_append`: the segments of two texts, one after the other
- `Segmented.ofPhrase_ofShape`: the segments of one layer of a text
- `Ty.segments_eq_cut`: the segments of a type are those of its text
-/

namespace Ascribe

namespace Instantiation

/-! ## Symbols of texts -/

/-- What a character contributes to a symbol, unless it is a colon. -/
def symbolChar (c : Char) : List Char :=
  if isWordChar c then [c]
  else if c == '$' || c == '<' || c == ',' then ['$']
  else if c == '>' || Text.isBlank c then []
  else ['_']

/-- `symbolChars` reads a character by itself unless it is a colon before another one. -/
theorem symbolChars_cons_of_apart {c : Char} {rest : List Char} (h : ∀ more, c = ':' → rest ≠ ':' :: more) :
    symbolChars (c :: rest) = symbolChar c ++ symbolChars rest := by
  have hsymbol : symbolChars (c :: rest) = if isWordChar c then c :: symbolChars rest
      else if c == '$' || c == '<' || c == ',' then '$' :: symbolChars rest
      else if c == '>' || Text.isBlank c then symbolChars rest
      else '_' :: symbolChars rest :=
    symbolChars.eq_3 c rest h
  rw [hsymbol, symbolChar]
  split_ifs <;> rfl

theorem symbolChars_cons {c : Char} (hc : c ≠ ':') (rest : List Char) :
    symbolChars (c :: rest) = symbolChar c ++ symbolChars rest :=
  symbolChars_cons_of_apart fun _ hcolon => absurd hcolon hc

theorem getLast?_ne_of_cons {c d : Char} {rest : List Char} (h : (c :: rest).getLast? ≠ some d) :
    rest.getLast? ≠ some d := by
  cases rest with
  | nil => simp
  | cons next rest => rwa [List.getLast?_cons_cons] at h

/-- `symbolChars` distributes over `++`, unless one colon ends the first text and another one comes next. -/
theorem symbolChars_append {front back : List Char} (h : front.getLast? ≠ some ':' ∨ back.head? ≠ some ':') :
    symbolChars (front ++ back) = symbolChars front ++ symbolChars back := by
  -- a character that is not the first of two colons, whatever it contributes
  have hstep (c : Char) (rest : List Char) (hcolons : ∀ more, c = ':' → rest ≠ ':' :: more)
      (ih : rest.getLast? ≠ some ':' ∨ back.head? ≠ some ':' →
        symbolChars (rest ++ back) = symbolChars rest ++ symbolChars back)
      (hends : (c :: rest).getLast? ≠ some ':' ∨ back.head? ≠ some ':') :
      symbolChars (c :: rest ++ back) = symbolChars (c :: rest) ++ symbolChars back := by
    have hapart (more : List Char) (hc : c = ':') : rest ++ back ≠ ':' :: more := by
      intro hmore
      cases rest with
      | nil =>
        rcases hends with hlast | hfirst
        · exact hlast (congrArg some hc)
        · exact hfirst (congrArg List.head? hmore)
      | cons d rest =>
        obtain ⟨rfl, -⟩ := List.cons.inj hmore
        exact hcolons rest hc rfl
    rw [List.cons_append, symbolChars_cons_of_apart hapart, symbolChars_cons_of_apart hcolons,
      ih (hends.imp_left getLast?_ne_of_cons), List.append_assoc]
  induction front using symbolChars.induct with
  | case1 => rfl
  | case2 rest ih =>
    have hrest := h.imp_left fun hlast => getLast?_ne_of_cons (getLast?_ne_of_cons hlast)
    rw [List.cons_append, List.cons_append, symbolChars, ih hrest, symbolChars, List.cons_append]
  | case3 c rest hcolons _ ih => exact hstep c rest hcolons ih h
  | case4 c rest hcolons _ _ ih => exact hstep c rest hcolons ih h
  | case5 c rest hcolons _ _ _ ih => exact hstep c rest hcolons ih h
  | case6 c rest hcolons _ _ _ ih => exact hstep c rest hcolons ih h

/-- `symbolChars` leaves word characters and separators as they are. -/
theorem symbolChars_eq_self {key : List Char} (h : ∀ c ∈ key, isWordChar c = true ∨ c = '$') :
    symbolChars key = key := by
  induction key with
  | nil => rfl
  | cons c rest ih =>
    rw [List.forall_mem_cons] at h
    have hchar : c ≠ ':' ∧ symbolChar c = [c] := by
      rcases h.1 with hword | rfl
      · refine ⟨?_, if_pos hword⟩
        rintro rfl
        exact absurd hword (by decide)
      · decide
    rw [symbolChars_cons hchar.1, hchar.2, ih h.2, List.singleton_append]

/-! ## Segments -/

/-- The segments of a text: the pieces between the separators of its symbol, before adjacent separators are merged. -/
def cut (text : String) : List (List Char) :=
  (symbolChars text.toList).splitOn '$'

/-- Segments after others without a separator between them: the last of the one and the first of the other are one. -/
def glue : List (List Char) → List (List Char) → List (List Char)
  | [], back => back
  | [last], back => (last ++ back.headD []) :: back.tail
  | segment :: next :: rest, back => segment :: glue (next :: rest) back

/-- Segments of several texts, with a separator between them. -/
def listed (parts : List (List (List Char))) : List (List Char) :=
  if parts.isEmpty then [[]] else parts.flatten

/-- Segments of several texts, with an underscore between them. -/
def marked : List (List (List Char)) → List (List Char)
  | [] => [[]]
  | [part] => part
  | part :: next :: rest => glue (glue part [['_']]) (marked (next :: rest))

/-- Segments between two underscores. -/
def enclosed (inner : List (List Char)) : List (List Char) :=
  glue (glue [['_']] inner) [['_']]

theorem splitOn_append (front back : List Char) :
    (front ++ back).splitOn '$' = glue (front.splitOn '$') (back.splitOn '$') := by
  induction front with
  | nil =>
    obtain ⟨first, rest, hback⟩ := List.exists_cons_of_ne_nil (List.splitOn_ne_nil '$' back)
    simp [hback, glue]
  | cons c front ih =>
    obtain ⟨first, rest, hfront⟩ := List.exists_cons_of_ne_nil (List.splitOn_ne_nil '$' front)
    rw [List.cons_append, List.splitOn_cons_eq_if_modifyHead, List.splitOn_cons_eq_if_modifyHead, ih, hfront]
    split
    · rfl
    · cases rest <;> rfl

/-- `cut` of a text after another one is `glue` of their segments. -/
theorem cut_append {a b : String} (h : a.toList.getLast? ≠ some ':' ∨ b.toList.head? ≠ some ':') :
    cut (a ++ b) = glue (cut a) (cut b) := by
  rw [cut, String.toList_append, symbolChars_append h, splitOn_append]
  rfl

/-- `cut` of a text after one that ends in something else than a colon. -/
theorem cut_append_of_last {a mark b : String} (hmark : mark.toList.getLast?.any (· != ':') = true) :
    cut (a ++ mark ++ b) = glue (cut (a ++ mark)) (cut b) := by
  apply cut_append
  left
  rw [String.toList_append, List.getLast?_append]
  intro hcolon
  cases hlast : mark.toList.getLast? with
  | none => simp [hlast] at hmark
  | some c => simp_all

/-- `cut` ignores a mark at the end that contributes no `symbolChars`. -/
theorem cut_append_of_vanishing {a mark : String} (hmark : symbolChars mark.toList = [])
    (hfirst : mark.toList.head? ≠ some ':') : cut (a ++ mark) = cut a := by
  rw [cut, String.toList_append, symbolChars_append (.inr hfirst), hmark, List.append_nil]
  rfl

/-- `cut` of two texts with a separator between them is the segments of both. -/
theorem cut_separated {a mark b : String} (hmark : symbolChars mark.toList = ['$'])
    (hfirst : mark.toList.head? ≠ some ':') (hlast : mark.toList.getLast? ≠ some ':') :
    cut (a ++ mark ++ b) = cut a ++ cut b := by
  rw [String.append_assoc, cut, String.toList_append, String.toList_append,
    symbolChars_append (.inr ?_), symbolChars_append (.inl hlast), hmark, List.singleton_append,
    List.splitOn_append_cons_self]
  · rfl
  · cases hchars : mark.toList with
    | nil => simp [hchars, symbolChars] at hmark
    | cons c rest => simpa [hchars] using hfirst

/-- `cut` of a text before another one in angle brackets, which are not closed in a symbol. -/
theorem cut_bracketed (front inner : String) : cut (front ++ "<" ++ inner ++ ">") = cut front ++ cut inner := by
  rw [cut_append_of_vanishing (by decide) (by decide), cut_separated (by decide) (by decide) (by decide)]

/-- `cut` of texts with commas between them is `listed`. -/
theorem cut_intercalate_comma (texts : List String) : cut (", ".intercalate texts) = listed (texts.map cut) := by
  induction texts with
  | nil => decide
  | cons text rest ih =>
    cases rest with
    | nil => simp [listed]
    | cons next rest =>
      rw [String.intercalate_cons_cons, cut_separated (by decide) (by decide) (by decide), ih]
      simp [listed]

/-- `cut` of texts with marks between them that contribute an underscore is `marked`. -/
theorem cut_intercalate_mark {mark : String} (hmark : cut mark = [['_']]) (hfirst : mark.toList.head? ≠ some ':')
    (hlast : mark.toList.getLast?.any (· != ':') = true) (texts : List String) :
    cut (mark.intercalate texts) = marked (texts.map cut) := by
  induction texts with
  | nil => rfl
  | cons text rest ih =>
    cases rest with
    | nil => simp [marked]
    | cons next rest =>
      rw [String.intercalate_cons_cons, cut_append_of_last hlast, cut_append (.inr hfirst), hmark, ih]
      rfl

/-- `cut` of a text between two marks that contribute an underscore is `enclosed`. -/
theorem cut_enclosed {opening closing text : String} (hopening : cut opening = [['_']])
    (hlast : opening.toList.getLast? ≠ some ':') (hclosing : cut closing = [['_']])
    (hfirst : closing.toList.head? ≠ some ':') : cut (opening ++ text ++ closing) = enclosed (cut text) := by
  rw [cut_append (.inr hfirst), cut_append (.inl hlast), hopening, hclosing]
  rfl

end Instantiation

/-! ## The segments of every form -/

open Instantiation

/-- The segments of a type, and whether its text needs parentheses before a postfix. -/
structure Segmented where
  segments : List (List Char)
  isLoose : Bool := false

namespace Segmented

/-- The segments of a phrase. -/
def ofPhrase (p : Phrase) : Segmented where
  segments := cut p.text
  isLoose := p.isLoose

/-- The segments as they stand before a postfix. -/
def asOperand (s : Segmented) : List (List Char) :=
  if s.isLoose then enclosed s.segments else s.segments

/-- The segments of generic arguments, each of which starts a new one. -/
def arguments (args : List Segmented) : List (List Char) :=
  (args.map (·.segments)).flatten

/-- A type after a label. The colon belongs to the label: two colons, one of them at the end of a name, make a
separator. -/
def labelled (label : String) (type : Segmented) : List (List Char) :=
  glue (cut (label ++ ": ")) type.segments

def field (f : Field Segmented) : List (List Char) :=
  labelled f.name f.type

def param (p : Param Segmented) : List (List Char) :=
  labelled ((if p.isMut then "mut " else "") ++ p.name) p.type

/-- Generic names, parameters and result, after what stands in front. -/
def signature (front : List (List Char)) (s : Signature Segmented) : List (List Char) :=
  let names := front ++ (s.genericNames.map cut).flatten
  let params := glue (glue names [['_']]) (listed (s.params.map param))
  glue (glue params [['_', '_']]) s.result.segments

def function (s : Signature Segmented) : List (List Char) :=
  signature (cut s.kind.keyword) s

def classAttribute (a : Attribute Segmented) : List (List Char) :=
  labelled (Phrase.staticMark a.isStatic ++ a.name) a.type

def classMethod (m : Method Segmented) : List (List Char) :=
  signature (cut (Phrase.staticMark m.isStatic ++ m.signature.kind.keyword ++ " " ++ m.names.text)) m.signature

def interfaceMethod (m : Method Segmented) : List (List Char) :=
  signature (cut ("fn " ++ m.names.text)) m.signature

def variantCase (c : VariantCase Segmented) : List (List Char) :=
  if c.params.isEmpty then cut c.name
  else glue (cut c.name) (enclosed (listed (c.params.map field)))

/-- Items between a keyword's braces. -/
def braced (keyword : String) (items : List (List Char)) : List (List Char) :=
  glue (glue (glue (cut keyword) [['_']]) items) [['_']]

/-- The segments that one layer of a type puts together. -/
def ofShape : Shape Segmented → Segmented
  | .prim p => { segments := cut p.name }
  | .array elem => { segments := glue elem.asOperand [['_', '_']] }
  | .nullable base => { segments := glue base.asOperand [['_']] }
  | .union members | .join members => { segments := marked (members.map (·.segments)), isLoose := true }
  | .tuple elems => { segments := enclosed (listed (elems.map (·.segments))) }
  | .struct body => { segments := braced "struct" (listed (body.fields.map field)) }
  | .cls body =>
    { segments := braced "class" (marked (body.attributes.map classAttribute ++ body.methods.map classMethod)) }
  | .interface body => { segments := braced "interface" (marked (body.methods.map interfaceMethod)) }
  | .variant cases => { segments := braced "variant" (listed (cases.map variantCase)) }
  | .constructed c => { segments := cut (c.variantName ++ "." ++ c.name) ++ arguments c.args }
  | .enum body =>
    { segments := braced ("enum as " ++ body.repr.name) (listed (body.cases.map (cut ∘ Phrase.enumCase))) }
  | .stringEnum cases => { segments := marked (cases.map (enclosed ∘ cut)) }
  | .fn s => { segments := function s, isLoose := true }
  | .coroutine s => { segments := cut "coroutine" ++ function s }
  | .generic g => { segments := cut g.name }
  | .ref r => { segments := cut r.name ++ arguments r.args }
  | .prototype body => { segments := cut "prototype" ++ cut (Phrase.target body.target) }
  | .error e => { segments := cut "error" ++ cut e.problem.message }

/-! ### The segments of one layer of text -/

/-- The segments of a pending phrase. -/
def ofPending (p : Phrase.Pending) : Segmented :=
  ofPhrase (p ())

/-- `cut` of several texts, each put together from the segments of its parts. -/
theorem map_cut {α β : Type} {f : α → String} {g : α → β} {h : β → List (List Char)} (hcut : ∀ x, cut (f x) = h (g x))
    (xs : List α) : (xs.map f).map cut = (xs.map g).map h := by
  simp only [List.map_map, Function.comp_def, hcut]

theorem map_cut_text (phrases : List Phrase.Pending) :
    (phrases.map (·.text)).map cut = (phrases.map ofPending).map (·.segments) := by
  apply map_cut
  intro phrase
  rfl

theorem cut_asOperand (p : Phrase) : cut p.asOperand = (ofPhrase p).asOperand := by
  unfold Phrase.asOperand asOperand
  show cut (if p.isLoose then _ else _) = if p.isLoose then _ else _
  split
  · exact cut_enclosed (by decide) (by decide) (by decide) (by decide)
  · rfl

theorem cut_arguments (front : String) (args : List Phrase.Pending) :
    cut (front ++ Phrase.arguments args) = cut front ++ arguments (args.map ofPending) := by
  unfold Phrase.arguments Phrase.sep
  cases args with
  | nil => simp [arguments]
  | cons arg rest =>
    rw [List.isEmpty_cons, if_neg (by decide), ← String.append_assoc, ← String.append_assoc, cut_bracketed,
      cut_intercalate_comma, map_cut_text]
    rfl

theorem cut_labelled (label : String) (type : Phrase.Pending) :
    cut (label ++ ": " ++ type.text) = labelled label (ofPending type) :=
  cut_append_of_last (by decide)

theorem cut_signature (front : String) (s : Signature Phrase.Pending) :
    cut (front ++ Phrase.signature s) = signature (cut front) (s.mapUnder fun _ => ofPending) := by
  have hnames : cut (front ++ if s.generics.isEmpty then "" else "<" ++ ", ".intercalate s.genericNames ++ ">") =
      cut front ++ (s.genericNames.map cut).flatten := by
    cases hgenerics : s.generics with
    | nil => simp [Signature.genericNames, hgenerics]
    | cons g rest =>
      rw [List.isEmpty_cons, if_neg (by decide), ← String.append_assoc, ← String.append_assoc, cut_bracketed,
        cut_intercalate_comma]
      simp [listed, Signature.genericNames, hgenerics]
  have hparams : (s.params.map Phrase.param).map cut = (s.mapUnder fun _ => ofPending).params.map param :=
    map_cut (fun p => cut_labelled ((if p.isMut then "mut " else "") ++ p.name) p.type) s.params
  have hgenericNames : (s.mapUnder fun _ => ofPending).genericNames = s.genericNames := by
    simp [Signature.genericNames, Signature.mapUnder]
  -- each mark has to stand beside all that comes before it
  have hassoc (names params result : String) : front ++ (names ++ "(" ++ params ++ ") -> " ++ result) =
      front ++ names ++ "(" ++ params ++ ") -> " ++ result := by
    simp only [String.append_assoc]
  rw [Phrase.signature, hassoc, cut_append_of_last (by decide), cut_append (.inr (by decide)),
    cut_append_of_last (by decide), cut_append (.inr (by decide)), hnames, cut_intercalate_comma, hparams, signature,
    hgenericNames]
  rfl

theorem map_cut_field (fields : List (Field Phrase.Pending)) :
    (fields.map Phrase.field).map cut = (Shape.mapFields ofPending fields).map field :=
  map_cut (fun f => cut_labelled f.name f.type) fields

theorem cut_variantCase (c : VariantCase Phrase.Pending) :
    cut (Phrase.variantCase c) = variantCase { c with params := Shape.mapFields ofPending c.params } := by
  unfold Phrase.variantCase variantCase
  simp only [Shape.mapFields, List.isEmpty_map]
  split
  · rfl
  · have hassoc (params : String) : c.name ++ "(" ++ params ++ ")" = c.name ++ ("(" ++ params ++ ")") := by
      simp only [String.append_assoc]
    rw [hassoc, cut_append (.inr ?_), cut_enclosed (by decide) (by decide) (by decide) (by decide),
      cut_intercalate_comma, map_cut_field]
    · rfl
    · simp

theorem cut_braced (keyword separator : String) (items : List String) :
    cut (Phrase.braced keyword separator items) = braced keyword (cut (separator.intercalate items)) := by
  rw [Phrase.braced, cut_append (.inr (by decide)), cut_append_of_last (by decide), cut_append (.inr (by decide))]
  rfl

theorem cut_classMethod (m : Method Phrase.Pending) :
    cut (Phrase.classMethod m) = classMethod { m with signature := m.signature.mapUnder fun _ => ofPending } :=
  cut_signature (Phrase.staticMark m.isStatic ++ m.signature.kind.keyword ++ " " ++ m.names.text) m.signature

theorem cut_interfaceMethod (m : Method Phrase.Pending) :
    cut (Phrase.interfaceMethod m) = interfaceMethod { m with signature := m.signature.mapUnder fun _ => ofPending } :=
  cut_signature ("fn " ++ m.names.text) m.signature

/-- `cut` of one layer of text by `Phrase.ofShape` is put together from the segments of its parts. -/
theorem cut_ofShape (s : Shape Phrase.Pending) :
    cut (Phrase.ofShape s).text = (ofShape (s.map ofPending)).segments := by
  cases s with
  | prim p => rfl
  | array elem =>
    show cut ((elem ()).asOperand ++ "[]") = _
    rw [cut_append (.inr (by decide)), cut_asOperand]
    rfl
  | nullable base =>
    show cut ((base ()).asOperand ++ "?") = _
    rw [cut_append (.inr (by decide)), cut_asOperand]
    rfl
  | union members | join members =>
    show cut (Phrase.sep _ members) = _
    rw [Phrase.sep, cut_intercalate_mark (by decide) (by decide) (by decide), map_cut_text]
    rfl
  | tuple elems =>
    show cut ("(" ++ Phrase.sep ", " elems ++ ")") = _
    rw [cut_enclosed (by decide) (by decide) (by decide) (by decide), Phrase.sep, cut_intercalate_comma, map_cut_text]
    rfl
  | struct body =>
    show cut (Phrase.braced "struct" ", " (body.fields.map Phrase.field)) = _
    rw [cut_braced, cut_intercalate_comma, map_cut_field]
    rfl
  | cls body =>
    show cut (Phrase.braced "class" "; "
      (body.attributes.map Phrase.classAttribute ++ body.methods.map Phrase.classMethod)) = _
    have hattributes : (body.attributes.map Phrase.classAttribute).map cut =
        (body.attributes.map fun a => { a with type := ofPending a.type }).map classAttribute :=
      map_cut (fun a => cut_labelled (Phrase.staticMark a.isStatic ++ a.name) a.type) body.attributes
    have hmethods : (body.methods.map Phrase.classMethod).map cut =
        (Shape.mapMethods (fun _ => ofPending) body.methods).map classMethod :=
      map_cut cut_classMethod body.methods
    rw [cut_braced, cut_intercalate_mark (by decide) (by decide) (by decide), List.map_append, hattributes, hmethods]
    rfl
  | interface body =>
    show cut (Phrase.braced "interface" "; " (body.methods.map Phrase.interfaceMethod)) = _
    have hmethods : (body.methods.map Phrase.interfaceMethod).map cut =
        (Shape.mapMethods (fun _ => ofPending) body.methods).map interfaceMethod :=
      map_cut cut_interfaceMethod body.methods
    rw [cut_braced, cut_intercalate_mark (by decide) (by decide) (by decide), hmethods]
    rfl
  | variant cases =>
    show cut (Phrase.braced "variant" ", " (cases.map Phrase.variantCase)) = _
    have hcases : (cases.map Phrase.variantCase).map cut =
        (cases.map fun c => { c with params := Shape.mapFields ofPending c.params }).map variantCase :=
      map_cut cut_variantCase cases
    rw [cut_braced, cut_intercalate_comma, hcases]
    rfl
  | constructed c => exact cut_arguments (c.variantName ++ "." ++ c.name) c.args
  | enum body =>
    show cut (Phrase.braced ("enum as " ++ body.repr.name) ", " (body.cases.map Phrase.enumCase)) = _
    rw [cut_braced, cut_intercalate_comma, List.map_map]
    rfl
  | stringEnum cases =>
    show cut (" | ".intercalate (cases.map fun c => "\"" ++ c ++ "\"")) = _
    rw [cut_intercalate_mark (by decide) (by decide) (by decide), List.map_map]
    refine congrArg marked (List.map_congr_left fun c _ => ?_)
    exact cut_enclosed (by decide) (by decide) (by decide) (by decide)
  | fn s => exact cut_signature s.kind.keyword s
  | coroutine s =>
    show cut ("coroutine" ++ "<" ++ Phrase.function s ++ ">") = _
    rw [cut_bracketed]
    exact congrArg (cut "coroutine" ++ ·) (cut_signature s.kind.keyword s)
  | generic g => rfl
  | ref r => exact cut_arguments r.name r.args
  | prototype body => exact cut_bracketed "prototype" (Phrase.target body.target)
  | error e => exact cut_bracketed "error" e.problem.message

theorem ofPhrase_ofShape (s : Shape Phrase.Pending) : ofPhrase (Phrase.ofShape s) = ofShape (s.map ofPending) := by
  have hloose : (Phrase.ofShape s).isLoose = (ofShape (s.map ofPending)).isLoose := by
    cases s <;> rfl
  rw [ofPhrase, cut_ofShape, hloose]

end Segmented

namespace Ty

/-- The segments of a type, put together from those of its parts. -/
def segmented (t : Ty) : Segmented :=
  t.fold fun _ parts => Segmented.ofShape parts

theorem segmented_eq (t : Ty) : t.segmented = Segmented.ofShape (t.shape.map segmented) :=
  fold_eq _ t

/-- The segments that a type adds to a symbol. -/
def segments (t : Ty) : List (List Char) :=
  t.segmented.segments

theorem segmented_eq_ofPhrase (t : Ty) : t.segmented = Segmented.ofPhrase t.phrase := by
  induction t using induction_on_parts with
  | step t ih =>
    rw [segmented_eq, phrase_eq, Segmented.ofPhrase_ofShape, Shape.map_map]
    exact congrArg _ (Shape.map_congr ih)

/-- `segments` of a type is `cut` of its `text`. -/
theorem segments_eq_cut (t : Ty) : t.segments = cut t.text := by
  rw [segments, segmented_eq_ofPhrase]
  rfl

end Ty

end Ascribe
