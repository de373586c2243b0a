import Ascribe.Proofs.Ty.Parts

/-!
# Structural types

The types that are compared by their structure alone: primitives, arrays, nullable types, tuples, structs,
functions and interfaces, without `any`, and with interfaces that have no super-interfaces and whose methods
have one name each.

The text of such a type shows which kind it is of (`Ty.kind?_eq_ofText`). A function starts with its keyword
and no other text does, because functions stand in parentheses before a postfix. The last character tells the
rest apart, up to the keywords of structs and interfaces. So types of different kinds have different texts.
-/

namespace Ascribe

/-- The kinds of structural types, apart from nullable types. -/
inductive Kind where
  | prim | array | tuple | struct | interface | fn
  deriving DecidableEq, Repr

/-- The kind of a layer. -/
def Shape.kind? {α : Type} : Shape α → Option Kind
  | .prim _ => some .prim
  | .array _ => some .array
  | .tuple _ => some .tuple
  | .struct _ => some .struct
  | .interface _ => some .interface
  | .fn _ => some .fn
  | _ => none

/-- The form of a layer with a given `kind?`. -/
theorem Shape.of_kind? {α : Type} {s : Shape α} {k : Kind} (h : s.kind? = some k) :
    match k with
    | .prim => ∃ p, s = .prim p
    | .array => ∃ elem, s = .array elem
    | .tuple => ∃ elems, s = .tuple elems
    | .struct => ∃ body, s = .struct body
    | .interface => ∃ body, s = .interface body
    | .fn => ∃ signature, s = .fn signature := by
  cases s <;> simp only [kind?, Option.some.injEq, reduceCtorEq] at h <;> subst h <;> exact ⟨_, rfl⟩

namespace Kind

/-- Whether a text starts like a function. -/
def opensFn : List Char → Bool
  | 'f' :: 'n' :: _ | 'c' :: _ => true
  | _ => false

/-- The kind of type that a text shows. -/
def ofText (text : List Char) : Kind :=
  if opensFn text then .fn
  else match text.getLast? with
    | some ']' => .array
    | some ')' => .tuple
    | some '\x7d' => if text.head? = some 's' then .struct else .interface
    | _ => .prim

/-- A text that is long enough to tell that it does not start like a function. -/
def IsOperand (text : String) : Prop :=
  ∃ x y rest, text.toList = x :: y :: rest ∧ opensFn [x, y] = false

namespace IsOperand

variable {text : String}

theorem opensFn_eq (h : IsOperand text) (more : List Char) : opensFn (text.toList ++ more) = false := by
  obtain ⟨x, y, rest, htext, hopens⟩ := h
  rw [htext, List.cons_append, List.cons_append]
  revert hopens
  unfold opensFn
  split <;> split <;> simp_all

theorem append (h : IsOperand text) (more : String) : IsOperand (text ++ more) := by
  obtain ⟨x, y, rest, htext, hopens⟩ := h
  refine ⟨x, y, rest ++ more.toList, ?_, hopens⟩
  rw [String.toList_append, htext]
  rfl

theorem parenthesised (text : String) : IsOperand ("(" ++ text ++ ")") := by
  have hlist : ("(" ++ text ++ ")").toList = '(' :: (text.toList ++ [')']) := by
    rw [String.toList_append, String.toList_append]
    rfl
  cases htext : text.toList with
  | nil => exact ⟨'(', ')', [], by rw [hlist, htext]; rfl, rfl⟩
  | cons y rest => exact ⟨'(', y, rest ++ [')'], by rw [hlist, htext]; rfl, rfl⟩

end IsOperand

end Kind

namespace Ty

/-- Whether one layer of a type is structural. -/
def isStructuralLayer (t : Ty) : Bool :=
  match t.shape with
  | .prim p => p != .any
  | .array _ | .nullable _ | .tuple _ | .struct _ | .fn _ => true
  | .interface body => body.supers.isEmpty && body.methods.all (·.names.aliases.isEmpty)
  | _ => false

/-- Whether a type is structural, at any depth. -/
def isStructural (t : Ty) : Bool :=
  t.everywhere isStructuralLayer

variable {t : Ty}

theorem isStructural_of_mem_parts (ht : t.isStructural = true) {part : Ty} (h : part ∈ t.shape.parts) :
    part.isStructural = true :=
  (everywhere_iff.mp ht).2 part h

theorem isNullable_eq_true_iff : t.isNullable = true ↔ ∃ x, t.shape = .nullable x := by
  unfold isNullable
  cases t.shape <;> simp

theorem isError_eq_false (h : t.isStructural = true) : t.isError = false := by
  have hlayer := (everywhere_iff.mp h).1
  unfold isStructuralLayer at hlayer
  unfold isError problem?
  split at hlayer <;> simp_all

theorem isAny_eq_false (h : t.isStructural = true) : t.isAny = false := by
  have hlayer := (everywhere_iff.mp h).1
  unfold isStructuralLayer at hlayer
  unfold isAny isPrimitive primitive?
  split at hlayer <;> simp_all

theorem reference?_eq_none (h : t.isStructural = true) : t.reference? = none := by
  have hlayer := (everywhere_iff.mp h).1
  unfold isStructuralLayer at hlayer
  unfold reference?
  split at hlayer <;> simp_all

theorem aliases_eq_nil {body : InterfaceBody Ty} (h : t.isStructural = true)
    (ht : t.shape = .interface body) : ∀ m ∈ body.methods, m.names.aliases = [] := by
  have hlayer := (everywhere_iff.mp h).1
  simp only [isStructuralLayer, ht, Bool.and_eq_true, List.all_eq_true, List.isEmpty_iff] at hlayer
  exact hlayer.2

/-- `asOperand` of a structural type does not start like a function. -/
theorem isOperand_asOperand (ht : t.isStructural = true) : Kind.IsOperand t.phrase.asOperand := by
  induction t using induction_on_parts with
  | step t ih =>
    have hparts (part : Ty) (h : part ∈ t.shape.parts) : Kind.IsOperand part.phrase.asOperand :=
      ih part h (isStructural_of_mem_parts ht h)
    rw [isStructural, everywhere_iff] at ht
    rw [phrase_eq]
    cases hshape : t.shape with
    | prim p => cases p <;> exact ⟨_, _, _, rfl, rfl⟩
    | array elem => exact (hparts elem (by simp [hshape, Shape.parts])).append "[]"
    | nullable base => exact (hparts base (by simp [hshape, Shape.parts])).append "?"
    | tuple elems => exact .parenthesised _
    | struct body =>
      have hkeyword : Kind.IsOperand "struct" := ⟨'s', 't', _, rfl, rfl⟩
      exact ((hkeyword.append _).append _).append _
    | interface body =>
      have hkeyword : Kind.IsOperand "interface" := ⟨'i', 'n', _, rfl, rfl⟩
      exact ((hkeyword.append _).append _).append _
    | fn s => exact .parenthesised _
    | _ => simp [isStructuralLayer, hshape] at ht

/-- `Kind.ofText` reads the kind of a structural type off its text, unless it is nullable. -/
theorem kind?_eq_ofText (ht : t.isStructural = true) (hnullable : t.isNullable = false) :
    t.shape.kind? = some (Kind.ofText t.text.toList) := by
  have hlayer := (everywhere_iff.mp ht).1
  have hparts (part : Ty) (h : part ∈ t.shape.parts) : Kind.IsOperand part.phrase.asOperand :=
    isOperand_asOperand (isStructural_of_mem_parts ht h)
  rw [text, phrase_eq]
  cases hshape : t.shape with
  | prim p => cases p <;> rfl
  | array elem =>
    have hopens := (hparts elem (by simp [hshape, Shape.parts])).opensFn_eq ['[', ']']
    show some Kind.array = some (Kind.ofText (elem.phrase.asOperand ++ "[]").toList)
    rw [String.toList_append, Kind.ofText]
    simp [hopens]
  | tuple elems =>
    show some Kind.tuple = some (Kind.ofText ("(" ++ Phrase.sep ", " _ ++ ")").toList)
    simp [Kind.ofText, Kind.opensFn, List.getLast?_cons]
  | struct body =>
    show some Kind.struct = some (Kind.ofText (Phrase.braced "struct" ", " _).toList)
    simp [Phrase.braced, Kind.ofText, Kind.opensFn, List.getLast?_cons]
  | interface body =>
    show some Kind.interface = some (Kind.ofText (Phrase.braced "interface" "; " _).toList)
    simp [Phrase.braced, Kind.ofText, Kind.opensFn, List.getLast?_cons]
  | fn s =>
    show some Kind.fn = some (Kind.ofText (s.kind.keyword ++ Phrase.signature _).toList)
    cases s.kind <;> simp [FnKind.keyword, Kind.ofText, Kind.opensFn]
  | nullable base => simp [isNullable, hshape] at hnullable
  | _ => simp [isStructuralLayer, hshape] at hlayer

end Ty

end Ascribe
