import Mathlib.Data.List.TakeDrop
import Ascribe.Instantiation.Symbol
import Ascribe.Proofs.Ty.Parts

/-!
# Readable texts

Types made of primitives, arrays, nullable types, tuples and references can be read back from their texts.
The text of such a type, followed by something that cannot belong to it, determines the type up to
back-references and where its text ends (`Ty.IsOrdinary.text_append_inj`).

A text is read from the left. A word or a parenthesis opens it, brackets enclose lists of types, and what
follows the innermost type is a run of the postfixes `[]` and `?`. So the induction carries the postfixes
that were already peeled off: an array of `T` followed by some postfixes reads like `T` followed by one more.
-/

namespace Ascribe

/-- Whether a name is a word: some letters, digits and underscores. -/
def isWord (name : String) : Bool :=
  !name.isEmpty && name.toList.all Instantiation.isWordChar

theorem exists_toList_eq {name : String} (h : isWord name = true) :
    ∃ c rest, name.toList = c :: rest ∧ Instantiation.isWordChar c = true := by
  simp only [isWord, Bool.and_eq_true, Bool.not_eq_true', List.all_eq_true] at h
  cases hname : name.toList with
  | nil => simp_all
  | cons c rest => exact ⟨c, rest, rfl, h.2 c (by simp [hname])⟩

theorem isWordChar_of_mem {name : String} (h : isWord name = true) :
    ∀ c ∈ name.toList, Instantiation.isWordChar c = true := by
  simp only [isWord, Bool.and_eq_true, List.all_eq_true] at h
  exact h.2

/-- What two equal lists start with, up to the first element that fails the test `p`, is the same. -/
theorem append_inj_of_head {α : Type} {p : α → Bool} {a b r s : List α} (ha : ∀ x ∈ a, p x = true)
    (hb : ∀ x ∈ b, p x = true) (hr : ∀ x ∈ r.head?, p x = false) (hs : ∀ x ∈ s.head?, p x = false)
    (h : a ++ r = b ++ s) : a = b ∧ r = s := by
  have stop {l : List α} (hl : ∀ x ∈ l.head?, p x = false) : l.takeWhile p = [] := by
    cases l with
    | nil => rfl
    | cons x l => simp [hl x rfl]
  have htake := congrArg (List.takeWhile p) h
  rw [List.takeWhile_append_of_pos ha, List.takeWhile_append_of_pos hb, stop hr, stop hs,
    List.append_nil, List.append_nil] at htake
  subst htake
  exact ⟨rfl, List.append_cancel_left h⟩

namespace Ty

/-! ## Ordinary types -/

/-- Whether one layer of a type is spelled out: a primitive, an array, a nullable type, a tuple, or a reference
whose name is a word and no keyword of a primitive. -/
def isSpelledLayer (t : Ty) : Bool :=
  match t.shape with
  | .prim _ | .array _ | .nullable _ | .tuple _ => true
  | .ref r => isWord r.name && (Primitive.ofName? r.name).isNone
  | _ => false

/-- Whether a type is spelled out, at any depth. -/
def isSpelled (t : Ty) : Bool :=
  t.everywhere isSpelledLayer

/-- Whether the name of a reference stands for one declaration. -/
def isDeclaredLayer (declOf : String → NodeId) (t : Ty) : Bool :=
  match t.shape with
  | .ref r => r.decl == declOf r.name
  | _ => true

/-- Whether a type is ordinary: spelled out, with names that determine their declarations. -/
def isOrdinary (declOf : String → NodeId) (t : Ty) : Bool :=
  t.everywhere fun t => t.isSpelledLayer && t.isDeclaredLayer declOf

variable {declOf : String → NodeId} {t t' : Ty}

theorem isSpelled_of_mem_parts (ht : t.isSpelled = true) {part : Ty} (h : part ∈ t.shape.parts) :
    part.isSpelled = true :=
  (everywhere_iff.mp ht).2 part h

theorem isOrdinary_of_mem_parts (ht : t.isOrdinary declOf = true) {part : Ty}
    (h : part ∈ t.shape.parts) : part.isOrdinary declOf = true :=
  (everywhere_iff.mp ht).2 part h

theorem isSpelled_of_isOrdinary (ht : t.isOrdinary declOf = true) : t.isSpelled = true :=
  everywhere_mono (fun _ h => (Bool.and_eq_true_iff.mp h).1) ht

theorem isSpelled_ref {r : Reference Ty} (ht : t.isSpelled = true) (hshape : t.shape = .ref r) :
    isWord r.name = true ∧ Primitive.ofName? r.name = none := by
  have hlayer := (everywhere_iff.mp ht).1
  simpa only [isSpelledLayer, hshape, Bool.and_eq_true, Option.isNone_iff_eq_none] using hlayer

/-! ## Texts of spelled types -/

/-- The characters of the text of a type. -/
def chars (t : Ty) : List Char :=
  t.text.toList

/-- The characters of a list of types with commas between them. -/
def listing : List Ty → List Char
  | [] => []
  | [t] => t.chars
  | t :: rest => t.chars ++ ',' :: ' ' :: listing rest

/-- The characters of generic arguments in angle brackets. -/
def argumentChars (args : List Ty) : List Char :=
  if args.isEmpty then [] else '<' :: listing args ++ ['>']

/-- What stands after the first type of a list. -/
def listingTail : List Ty → List Char
  | [] => []
  | rest => ',' :: ' ' :: listing rest

theorem listing_cons (t : Ty) (rest : List Ty) : listing (t :: rest) = t.chars ++ listingTail rest := by
  cases rest <;> simp [listing, listingTail]

theorem toList_intercalate (ts : List Ty) : (", ".intercalate (ts.map text)).toList = listing ts := by
  rw [String.toList_intercalate, List.map_map]
  induction ts with
  | nil => rfl
  | cons t rest ih =>
    cases rest with
    | nil => simp [listing, chars, List.intercalate]
    | cons u rest =>
      simp only [List.map_cons, listing] at ih ⊢
      rw [← ih]
      simp [List.intercalate, chars]

theorem toList_sep (ts : List Ty) : (Phrase.sep ", " (ts.map fun part _ => part.phrase)).toList = listing ts := by
  rw [← toList_intercalate, Phrase.sep, List.map_map]
  rfl

theorem toList_arguments (args : List Ty) :
    (Phrase.arguments (args.map fun part _ => part.phrase)).toList = argumentChars args := by
  rw [Phrase.arguments, argumentChars, List.isEmpty_map]
  split
  · rfl
  · simp [toList_sep]

/-- `asOperand` puts no parentheses around a type that `isSpelled`. -/
theorem asOperand_eq_text (ht : t.isSpelled = true) : t.phrase.asOperand = t.text := by
  have hlayer := (everywhere_iff.mp ht).1
  have hloose : t.phrase.isLoose = false := by
    rw [phrase_eq]
    unfold isSpelledLayer at hlayer
    cases hshape : t.shape <;> simp only [hshape, Bool.false_eq_true] at hlayer <;> rfl
  rw [Phrase.asOperand, hloose]
  rfl

theorem chars_eq (t : Ty) :
    t.chars = (Phrase.ofShape (t.shape.map fun part _ => part.phrase)).text.toList := by
  rw [chars, text, phrase_eq]

theorem chars_prim {p : Primitive} (hshape : t.shape = .prim p) : t.chars = p.name.toList := by
  rw [chars_eq, hshape]
  rfl

theorem chars_array {elem : Ty} (hshape : t.shape = .array elem) (helem : elem.isSpelled = true) :
    t.chars = elem.chars ++ ['[', ']'] := by
  rw [chars_eq, hshape, chars, ← asOperand_eq_text helem]
  exact String.toList_append

theorem chars_nullable {base : Ty} (hshape : t.shape = .nullable base) (hbase : base.isSpelled = true) :
    t.chars = base.chars ++ ['?'] := by
  rw [chars_eq, hshape, chars, ← asOperand_eq_text hbase]
  exact String.toList_append

theorem chars_tuple {elems : List Ty} (hshape : t.shape = .tuple elems) :
    t.chars = '(' :: (listing elems ++ [')']) := by
  rw [chars_eq, hshape, ← toList_sep]
  simp [Shape.map, Shape.mapUnder, Phrase.ofShape]

theorem chars_ref {r : Reference Ty} (hshape : t.shape = .ref r) :
    t.chars = r.name.toList ++ argumentChars r.args := by
  rw [chars_eq, hshape, ← toList_arguments]
  exact String.toList_append

/-! ## Postfixes -/

/-- What can stand after a type and make another type of it. -/
inductive Postfix where
  | array | nullable

/-- The characters of a postfix. -/
def Postfix.chars : Postfix → List Char
  | .array => ['[', ']']
  | .nullable => ['?']

/-- The type that a postfix makes. -/
def Postfix.apply (t : Ty) : Postfix → Ty
  | .array => of (.array t)
  | .nullable => of (.nullable t)

/-- A type with a run of postfixes after it. -/
def withPostfixes (t : Ty) (run : List Postfix) : Ty :=
  run.foldl Postfix.apply t

theorem Postfix.erase_apply (t : Ty) (mark : Postfix) : (mark.apply t).erase = mark.apply t.erase := by
  cases mark <;> exact erase_eq _

/-- `withPostfixes` keeps equality up to `erase`. -/
theorem erase_withPostfixes (h : t.erase = t'.erase) (run : List Postfix) :
    (t.withPostfixes run).erase = (t'.withPostfixes run).erase := by
  induction run generalizing t t' with
  | nil => exact h
  | cons mark run ih =>
    apply ih
    rw [Postfix.erase_apply, Postfix.erase_apply, h]

/-! ## How a text starts -/

/-- The type that a word with arguments stands for. -/
def named (declOf : String → NodeId) (name : String) (args : List Ty) : Ty :=
  match Primitive.ofName? name with
  | some p => prim p
  | none => reference (declOf name) name args

/-- How the text of an ordinary type starts, if it does not end in a postfix. -/
inductive Opening (declOf : String → NodeId) (t : Ty) : Prop where
  | tuple (elems : List Ty) (mem : ∀ part ∈ elems, part ∈ t.shape.parts)
      (chars : t.chars = '(' :: (listing elems ++ [')'])) (erase : t.erase = of (.tuple (elems.map erase)))
  | word (name : String) (args : List Ty) (word : isWord name = true)
      (mem : ∀ part ∈ args, part ∈ t.shape.parts) (chars : t.chars = name.toList ++ argumentChars args)
      (erase : t.erase = named declOf name (args.map erase))

/-- How the text of an ordinary type is made from the texts of its parts. -/
inductive Layout (declOf : String → NodeId) (t : Ty) : Prop where
  | opening (h : Opening declOf t)
  | wrapped (mark : Postfix) (base : Ty) (mem : base ∈ t.shape.parts)
      (chars : t.chars = base.chars ++ mark.chars) (erase : t.erase = (mark.apply base).erase)

theorem isWord_name (p : Primitive) : isWord p.name = true := by
  cases p <;> decide

theorem ofName?_name (p : Primitive) : Primitive.ofName? p.name = some p := by
  cases p <;> decide

/-- Every type that `isOrdinary` has a `Layout`. -/
theorem layout (ht : t.isOrdinary declOf = true) : Layout declOf t := by
  have hspelled := isSpelled_of_isOrdinary ht
  have hlayer := Bool.and_eq_true_iff.mp (everywhere_iff.mp ht).1
  have herase := erase_eq t
  cases hshape : t.shape with
  | prim p =>
    rw [hshape] at herase
    refine .opening (.word p.name [] (isWord_name p) (by simp) ?_ ?_)
    · rw [chars_prim hshape]
      exact (List.append_nil _).symm
    · rw [herase, named, ofName?_name]
      rfl
  | array elem =>
    have hmem : elem ∈ t.shape.parts := by simp [hshape, Shape.parts]
    rw [hshape] at herase
    refine .wrapped .array elem hmem (chars_array hshape (isSpelled_of_mem_parts hspelled hmem)) ?_
    rw [herase, Postfix.erase_apply]
    rfl
  | nullable base =>
    have hmem : base ∈ t.shape.parts := by simp [hshape, Shape.parts]
    rw [hshape] at herase
    refine .wrapped .nullable base hmem (chars_nullable hshape (isSpelled_of_mem_parts hspelled hmem)) ?_
    rw [herase, Postfix.erase_apply]
    rfl
  | tuple elems =>
    rw [hshape] at herase
    exact .opening (.tuple elems (by simp [hshape, Shape.parts]) (chars_tuple hshape) herase)
  | ref r =>
    obtain ⟨hword, hkeyword⟩ := isSpelled_ref hspelled hshape
    have hdecl : r.decl = declOf r.name := by simpa [isDeclaredLayer, hshape] using hlayer.2
    rw [hshape] at herase
    refine .opening (.word r.name r.args hword (by simp [hshape, Shape.parts]) (chars_ref hshape) ?_)
    rw [herase, named, hkeyword, ← hdecl]
    rfl
  | _ => simp [isSpelledLayer, hshape] at hlayer

/-- `chars` of an ordinary type start with a word character or an opening parenthesis. -/
theorem exists_chars_eq (ht : t.isOrdinary declOf = true) :
    ∃ c rest, t.chars = c :: rest ∧ (Instantiation.isWordChar c = true ∨ c = '(') := by
  induction t using induction_on_parts with
  | step t ih =>
    cases layout ht with
    | opening hopening =>
      cases hopening with
      | tuple elems _ hchars _ => exact ⟨'(', _, hchars, .inr rfl⟩
      | word name args hword _ hchars _ =>
        obtain ⟨c, rest, hname, hc⟩ := exists_toList_eq hword
        exact ⟨c, rest ++ argumentChars args, by rw [hchars, hname]; rfl, .inl hc⟩
    | wrapped mark base hmem hchars _ =>
      obtain ⟨c, rest, hbase, hc⟩ := ih base hmem (isOrdinary_of_mem_parts ht hmem)
      exact ⟨c, rest ++ mark.chars, by rw [hchars, hbase]; rfl, hc⟩

/-! ## Reading lists -/

/-- What can stand after a type: nothing, a comma or a closing bracket. -/
def EndsType (rest : List Char) : Prop :=
  ∀ c ∈ rest.head?, c = ',' ∨ c = ')' ∨ c = '>'

/-- A type that is known, up to back-references, once its text and the end of its text are read. -/
def Readable (declOf : String → NodeId) (t : Ty) : Prop :=
  ∀ t' : Ty, t'.isOrdinary declOf = true → ∀ rest rest', EndsType rest → EndsType rest' →
    t.chars ++ rest = t'.chars ++ rest' → t.erase = t'.erase ∧ rest = rest'

theorem endsType_listingTail {close : Char} (hclose : close = ')' ∨ close = '>') (ts : List Ty)
    (rest : List Char) : EndsType (listingTail ts ++ close :: rest) := by
  intro c hc
  cases ts with
  | nil =>
    obtain rfl : close = c := by simpa [listingTail] using hc
    exact .inr hclose
  | cons t ts =>
    obtain rfl : ',' = c := by simpa [listingTail] using hc
    exact .inl rfl

/-- `listing` does not start with a closing bracket, so a list that ends does not go on. -/
theorem close_ne_listing {close : Char} (hclose : close = ')' ∨ close = '>')
    (ht : t.isOrdinary declOf = true) (ts : List Ty) (rest rest' : List Char) :
    close :: rest ≠ listing (t :: ts) ++ rest' := by
  obtain ⟨c, more, hchars, hc⟩ := exists_chars_eq ht
  rw [listing_cons, hchars]
  intro heq
  obtain rfl : close = c := (List.cons.inj heq).1
  rcases hclose with rfl | rfl <;> revert hc <;> decide

/-- `listing` up to a closing bracket can be read if the elements are `Readable`. -/
theorem listing_append_inj {close : Char} (hclose : close = ')' ∨ close = '>') {ts ts' : List Ty}
    (hts : ∀ t ∈ ts, t.isOrdinary declOf = true) (hread : ∀ t ∈ ts, Readable declOf t)
    (hts' : ∀ t ∈ ts', t.isOrdinary declOf = true) {rest rest' : List Char}
    (h : listing ts ++ close :: rest = listing ts' ++ close :: rest') :
    ts.map erase = ts'.map erase ∧ rest = rest' := by
  induction ts generalizing ts' with
  | nil =>
    cases ts' with
    | nil => exact ⟨rfl, (List.cons.inj h).2⟩
    | cons t' ts' => exact absurd h (close_ne_listing hclose (hts' t' (by simp)) ts' rest _)
  | cons t ts ih =>
    cases ts' with
    | nil => exact absurd h.symm (close_ne_listing hclose (hts t (by simp)) ts rest' _)
    | cons t' ts' =>
      simp only [List.forall_mem_cons] at hts hread hts'
      rw [listing_cons, listing_cons, List.append_assoc, List.append_assoc] at h
      -- the first types end where the rest of their lists starts
      obtain ⟨herase, htail⟩ := hread.1 t' hts'.1 _ _ (endsType_listingTail hclose ts rest)
        (endsType_listingTail hclose ts' rest') h
      rw [List.map_cons, List.map_cons, herase]
      have hcomma : close ≠ ',' := by rcases hclose with rfl | rfl <;> decide
      cases ts with
      | nil =>
        cases ts' with
        | nil => exact ⟨rfl, (List.cons.inj htail).2⟩
        | cons u' us' => exact absurd (List.cons.inj htail).1 hcomma
      | cons u us =>
        cases ts' with
        | nil => exact absurd (List.cons.inj htail).1.symm hcomma
        | cons u' us' =>
          have hlist := (List.cons.inj (List.cons.inj htail).2).2
          obtain ⟨hmap, hrest⟩ := ih hts.2 hread.2 hts'.2 hlist
          exact ⟨by rw [hmap], hrest⟩

/-- `argumentChars` can be read if each argument is `Readable`, unless another angle bracket follows. -/
theorem argumentChars_append_inj {args args' : List Ty} (hargs : ∀ t ∈ args, t.isOrdinary declOf = true)
    (hread : ∀ t ∈ args, Readable declOf t) (hargs' : ∀ t ∈ args', t.isOrdinary declOf = true)
    {rest rest' : List Char} (hrest : ∀ c ∈ rest.head?, c ≠ '<') (hrest' : ∀ c ∈ rest'.head?, c ≠ '<')
    (h : argumentChars args ++ rest = argumentChars args' ++ rest') :
    args.map erase = args'.map erase ∧ rest = rest' := by
  cases args with
  | nil =>
    cases args' with
    | nil => exact ⟨rfl, h⟩
    | cons t' ts' =>
      have hhead : rest.head? = some '<' := by
        show (argumentChars [] ++ rest).head? = some '<'
        rw [h]
        rfl
      exact absurd rfl (hrest _ hhead)
  | cons t ts =>
    cases args' with
    | nil =>
      have hhead : rest'.head? = some '<' := by
        show (argumentChars [] ++ rest').head? = some '<'
        rw [← h]
        rfl
      exact absurd rfl (hrest' _ hhead)
    | cons t' ts' =>
      have hlist : listing (t :: ts) ++ '>' :: rest = listing (t' :: ts') ++ '>' :: rest' := by
        simpa [argumentChars] using h
      exact listing_append_inj (.inr rfl) hargs hread hargs' hlist

/-! ## Reading types -/

/-- `Postfix.chars` of a run can be read up to the end of the type (`EndsType`). -/
theorem postfixes_append_inj {run run' : List Postfix} {rest rest' : List Char}
    (hrest : EndsType rest) (hrest' : EndsType rest')
    (h : run.flatMap Postfix.chars ++ rest = run'.flatMap Postfix.chars ++ rest') :
    run = run' ∧ rest = rest' := by
  -- a postfix does not start where a type ends
  have stop {rest more : List Char} (hrest : EndsType rest) (mark : Postfix) :
      rest ≠ mark.chars ++ more := by
    rintro rfl
    cases mark
    · exact absurd (hrest '[' rfl) (by decide)
    · exact absurd (hrest '?' rfl) (by decide)
  induction run generalizing run' with
  | nil =>
    cases run' with
    | nil => exact ⟨rfl, h⟩
    | cons mark' run' =>
      rw [List.flatMap_cons, List.append_assoc] at h
      exact absurd h (stop hrest mark')
  | cons mark run ih =>
    cases run' with
    | nil =>
      rw [List.flatMap_cons, List.append_assoc] at h
      exact absurd h.symm (stop hrest' mark)
    | cons mark' run' =>
      rw [List.flatMap_cons, List.flatMap_cons, List.append_assoc, List.append_assoc] at h
      cases mark <;> cases mark' <;> simp only [Postfix.chars, List.cons_append, List.nil_append,
        List.cons.injEq, true_and, false_and, Char.reduceEq] at h
      all_goals
        obtain ⟨rfl, hrests⟩ := ih h
        exact ⟨rfl, hrests⟩

/-- What can stand after a type that may still get a postfix: anything that neither goes on with a word nor
opens generic arguments. -/
def EndsWord (rest : List Char) : Prop :=
  ∀ c ∈ rest.head?, Instantiation.isWordChar c = false ∧ c ≠ '<'

theorem endsWord_postfixes (run : List Postfix) {rest : List Char} (hrest : EndsType rest) :
    EndsWord (run.flatMap Postfix.chars ++ rest) := by
  intro c hc
  cases run with
  | nil => rcases hrest c hc with rfl | rfl | rfl <;> decide
  | cons mark run =>
    cases mark
    · obtain rfl : '[' = c := Option.some.inj hc
      decide
    · obtain rfl : '?' = c := Option.some.inj hc
      decide

/-- `argumentChars` do not go on with a word. -/
theorem isWordChar_head_argumentChars (args : List Ty) {rest : List Char} (hrest : EndsWord rest) :
    ∀ c ∈ (argumentChars args ++ rest).head?, Instantiation.isWordChar c = false := by
  intro c hc
  cases args with
  | nil => exact (hrest c hc).1
  | cons t ts =>
    obtain rfl : '<' = c := Option.some.inj hc
    decide

/-- Two types that are an `Opening`, without postfixes, are read alike if the parts of the first are `Readable`. -/
theorem opening_append_inj (ht : t.isOrdinary declOf = true) (ht' : t'.isOrdinary declOf = true)
    (hopening : Opening declOf t) (hopening' : Opening declOf t')
    (hread : ∀ part ∈ t.shape.parts, Readable declOf part) {rest rest' : List Char}
    (hrest : EndsWord rest) (hrest' : EndsWord rest') (h : t.chars ++ rest = t'.chars ++ rest') :
    t.erase = t'.erase ∧ rest = rest' := by
  have hparts {parts : List Ty} (hmem : ∀ part ∈ parts, part ∈ t.shape.parts) :
      ∀ part ∈ parts, part.isOrdinary declOf = true :=
    fun part hpart => isOrdinary_of_mem_parts ht (hmem part hpart)
  have hparts' {parts : List Ty} (hmem : ∀ part ∈ parts, part ∈ t'.shape.parts) :
      ∀ part ∈ parts, part.isOrdinary declOf = true :=
    fun part hpart => isOrdinary_of_mem_parts ht' (hmem part hpart)
  -- no word starts with a parenthesis
  have parenthesis {name : String} (hword : isWord name = true) (more more' : List Char) :
      '(' :: more ≠ name.toList ++ more' := by
    obtain ⟨c, name', hname, hc⟩ := exists_toList_eq hword
    rw [hname]
    intro heq
    obtain rfl : '(' = c := (List.cons.inj heq).1
    exact absurd hc (by decide)
  cases hopening with
  | tuple elems hmem hchars herase =>
    rw [hchars] at h
    cases hopening' with
    | tuple elems' hmem' hchars' herase' =>
      rw [hchars'] at h
      have hlist : listing elems ++ ')' :: rest = listing elems' ++ ')' :: rest' := by
        simpa using h
      obtain ⟨hmap, hrests⟩ := listing_append_inj (.inl rfl) (hparts hmem)
        (fun part hpart => hread part (hmem part hpart)) (hparts' hmem') hlist
      exact ⟨by rw [herase, herase', hmap], hrests⟩
    | word name' args' hword' _ hchars' _ =>
      rw [hchars', List.append_assoc] at h
      exact absurd h (parenthesis hword' _ _)
  | word name args hword hmem hchars herase =>
    rw [hchars, List.append_assoc] at h
    cases hopening' with
    | tuple elems' _ hchars' _ =>
      rw [hchars'] at h
      exact absurd h.symm (parenthesis hword _ _)
    | word name' args' hword' hmem' hchars' herase' =>
      rw [hchars', List.append_assoc] at h
      obtain ⟨hname, hargs⟩ := append_inj_of_head (isWordChar_of_mem hword) (isWordChar_of_mem hword')
        (isWordChar_head_argumentChars args hrest) (isWordChar_head_argumentChars args' hrest') h
      obtain ⟨hmap, hrests⟩ := argumentChars_append_inj (hparts hmem)
        (fun part hpart => hread part (hmem part hpart)) (hparts' hmem')
        (fun c hc => (hrest c hc).2) (fun c hc => (hrest' c hc).2) hargs
      exact ⟨by rw [herase, herase', String.toList_inj.mp hname, hmap], hrests⟩

/-- An `Opening` against any ordinary type: the postfixes of the other type are peeled off one after the other. -/
theorem opening_postfixes_append_inj (ht : t.isOrdinary declOf = true) (ht' : t'.isOrdinary declOf = true)
    (hopening : Opening declOf t) (hread : ∀ part ∈ t.shape.parts, Readable declOf part)
    {run run' : List Postfix} {rest rest' : List Char} (hrest : EndsType rest) (hrest' : EndsType rest')
    (h : t.chars ++ (run.flatMap Postfix.chars ++ rest) = t'.chars ++ (run'.flatMap Postfix.chars ++ rest')) :
    (t.withPostfixes run).erase = (t'.withPostfixes run').erase ∧ rest = rest' := by
  induction t' using induction_on_parts generalizing run' with
  | step t' ih =>
    cases layout ht' with
    | opening hopening' =>
      obtain ⟨herase, hruns⟩ := opening_append_inj ht ht' hopening hopening' hread
        (endsWord_postfixes run hrest) (endsWord_postfixes run' hrest') h
      obtain ⟨rfl, hrests⟩ := postfixes_append_inj hrest hrest' hruns
      exact ⟨erase_withPostfixes herase run, hrests⟩
    | wrapped mark base hmem hchars herase =>
      rw [hchars, List.append_assoc, ← List.append_assoc mark.chars, ← List.flatMap_cons] at h
      obtain ⟨hbase, hrests⟩ := ih base hmem (isOrdinary_of_mem_parts ht' hmem) h
      exact ⟨hbase.trans (erase_withPostfixes herase run').symm, hrests⟩

/-- `chars` of an ordinary type and a run of `Postfix.chars`, up to the end of the type, show `withPostfixes` of the
type and where it ends. -/
theorem postfixes_text_append_inj (ht : t.isOrdinary declOf = true) (ht' : t'.isOrdinary declOf = true)
    (run run' : List Postfix) {rest rest' : List Char} (hrest : EndsType rest) (hrest' : EndsType rest')
    (h : t.chars ++ (run.flatMap Postfix.chars ++ rest) = t'.chars ++ (run'.flatMap Postfix.chars ++ rest')) :
    (t.withPostfixes run).erase = (t'.withPostfixes run').erase ∧ rest = rest' := by
  induction t using induction_on_parts generalizing t' run run' rest rest' with
  | step t ih =>
    cases layout ht with
    | opening hopening =>
      -- here the parts are read by induction, each up to its own end
      have hread : ∀ part ∈ t.shape.parts, Readable declOf part := by
        intro part hpart u hu more more' hmore hmore' heq
        exact ih part hpart (isOrdinary_of_mem_parts ht hpart) hu [] [] hmore hmore' heq
      exact opening_postfixes_append_inj ht ht' hopening hread hrest hrest' h
    | wrapped mark base hmem hchars herase =>
      rw [hchars, List.append_assoc, ← List.append_assoc mark.chars, ← List.flatMap_cons] at h
      obtain ⟨hbase, hrests⟩ := ih base hmem (isOrdinary_of_mem_parts ht hmem) ht' (mark :: run) run' hrest hrest' h
      exact ⟨(erase_withPostfixes herase run).trans hbase, hrests⟩

/-- Every type that `isOrdinary` is `Readable`. -/
theorem readable (ht : t.isOrdinary declOf = true) : Readable declOf t :=
  fun _ ht' _ _ hrest hrest' h =>
    postfixes_text_append_inj ht ht' [] [] hrest hrest' h

end Ty

end Ascribe
