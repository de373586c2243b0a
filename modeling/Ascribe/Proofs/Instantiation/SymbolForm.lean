import Mathlib.Data.List.Infix
import Ascribe.Proofs.Instantiation.Segments

/-!
# What a symbol looks like

Symbols are the texts made of letters, digits, underscores and separators in which no two separators are adjacent
(`IsSymbol`). Every key has such a symbol, and a text of this kind is its own symbol.

Separators are merged as the symbol is written: a separator is left out if the last character that was written is one
(`push`). What was written for the characters that vanish in between does not matter, so the properties of symbols are
those that writing one more character keeps. A key that is written after another one, behind `::`, adds its own
characters to the symbol of the other, and one separator between them.

## Key results

- `mergeSeparators_eq_foldl`: merging separators is writing one character after another
- `isSymbol_symbolOf`, `symbolOf_eq_self`: the symbol of a key is a symbol, and a symbol is its own symbol
- `symbolOf_normal_form`: symbols, and the symbols of nested keys
-/

namespace Ascribe.Instantiation

/-- A text of letters, digits, underscores and separators, no two of which are adjacent. -/
structure IsSymbol (text : String) : Prop where
  chars : ∀ c ∈ text.toList, c.isAlphanum = true ∨ c = '_' ∨ c = '$'
  apart : ¬ ['$', '$'] <:+: text.toList

/-! ## Writing one character after another -/

/-- Write a character, unless it is a separator and so is the last one that was written. -/
def push (written : List Char) (c : Char) : List Char :=
  if c = '$' ∧ written.getLast? = some '$' then written else written ++ [c]

theorem foldl_push_concat (written : List Char) (c : Char) (rest : List Char) :
    rest.foldl push (written ++ [c]) = written ++ mergeSeparators (c :: rest) := by
  induction rest generalizing written c with
  | nil => simp [mergeSeparators]
  | cons d rest ih =>
    -- merging looks at the next character, writing at the last one: both compare `c` with `d`
    simp only [List.foldl_cons, push, List.getLast?_concat, Option.some.injEq]
    split
    · next hboth =>
      obtain ⟨rfl, rfl⟩ := hboth
      rw [ih, mergeSeparators]
    · next hapart =>
      have hmerge : mergeSeparators (c :: d :: rest) = c :: mergeSeparators (d :: rest) := by
        apply mergeSeparators.eq_2
        rintro more rfl hmore
        exact hapart ⟨(List.cons.inj hmore).1, rfl⟩
      rw [ih, hmerge, List.append_assoc, List.singleton_append]

/-- `mergeSeparators` writes one character after another by `push`. -/
theorem mergeSeparators_eq_foldl (chars : List Char) : mergeSeparators chars = chars.foldl push [] := by
  cases chars with
  | nil => rfl
  | cons c rest =>
    have hfirst : push [] c = [] ++ [c] := by simp [push]
    rw [List.foldl_cons, hfirst, foldl_push_concat, List.nil_append]

theorem mergeSeparators_append (front back : List Char) :
    mergeSeparators (front ++ back) = back.foldl push (mergeSeparators front) := by
  rw [mergeSeparators_eq_foldl, mergeSeparators_eq_foldl, List.foldl_append]

/-- What holds of all characters that `push` is given holds of all that are written. -/
theorem forall_mem_foldl_push {P : Char → Prop} {written chars : List Char} (hwritten : ∀ c ∈ written, P c)
    (hchars : ∀ c ∈ chars, P c) : ∀ c ∈ chars.foldl push written, P c := by
  induction chars generalizing written with
  | nil => exact hwritten
  | cons d rest ih =>
    rw [List.forall_mem_cons] at hchars
    apply ih _ hchars.2
    unfold push
    split
    · exact hwritten
    · rw [List.forall_mem_append, List.forall_mem_singleton]
      exact ⟨hwritten, hchars.1⟩

/-- Two separators are adjacent in `written ++ [c]` exactly if they were before, or `c` is a separator and stands after
one. -/
theorem infix_concat {written : List Char} {c : Char} :
    ['$', '$'] <:+: written ++ [c] ↔ ['$', '$'] <:+: written ∨ c = '$' ∧ written.getLast? = some '$' := by
  -- a pair that was not there before stands at the end
  have hend : ['$', '$'] <:+ written ++ [c] ↔ c = '$' ∧ written.getLast? = some '$' := by
    rw [List.suffix_concat_iff, ← List.singleton_suffix_iff_getLast?_eq_some]
    constructor
    · rintro (hnone | ⟨front, hfront, hsuffix⟩)
      · cases hnone
      · have hparts : ['$'] ++ ['$'] = front ++ [c] := hfront
        obtain ⟨rfl, hlast⟩ := List.append_inj' hparts rfl
        exact ⟨(List.cons.inj hlast).1.symm, hsuffix⟩
    · rintro ⟨rfl, hsuffix⟩
      exact .inr ⟨['$'], rfl, hsuffix⟩
  rw [List.infix_concat_iff, hend, or_comm]

/-- `push` writes no separator next to another one. -/
theorem apart_foldl_push {written : List Char} (h : ¬ ['$', '$'] <:+: written) (chars : List Char) :
    ¬ ['$', '$'] <:+: chars.foldl push written := by
  induction chars generalizing written with
  | nil => exact h
  | cons c rest ih =>
    apply ih
    unfold push
    split
    · exact h
    · next hapart => simp only [infix_concat, h, hapart, or_self, not_false_eq_true]

/-- `push` writes characters without separators as they are. -/
theorem foldl_push_plain (written : List Char) {chars : List Char} (h : '$' ∉ chars) :
    chars.foldl push written = written ++ chars := by
  induction chars generalizing written with
  | nil => simp
  | cons c rest ih =>
    simp only [List.mem_cons, not_or] at h
    rw [List.foldl_cons, ih _ h.2, push, if_neg fun hboth => h.1 hboth.1.symm, List.append_assoc,
      List.singleton_append]

/-- `push` writes characters as they are where no separators would be adjacent. -/
theorem foldl_push_apart {written chars : List Char} (h : ¬ ['$', '$'] <:+: written ++ chars) :
    chars.foldl push written = written ++ chars := by
  induction chars generalizing written with
  | nil => simp
  | cons c rest ih =>
    have hsplit : written ++ c :: rest = (written ++ [c]) ++ rest := by simp
    rw [hsplit] at h ⊢
    have hfirst : ¬ ['$', '$'] <:+: written ++ [c] := fun hpair => h (hpair.trans (List.prefix_append _ _).isInfix)
    have hpush : push written c = written ++ [c] := if_neg fun hboth => hfirst (infix_concat.mpr (.inr hboth))
    rw [List.foldl_cons, hpush, ih h]

/-! ## Characters of a key -/

/-- `symbolChars` contains word characters and separators only. -/
theorem isWordChar_or_separator_of_mem_symbolChars (key : List Char) :
    ∀ c ∈ symbolChars key, isWordChar c = true ∨ c = '$' := by
  fun_induction symbolChars key with
  | case1 => simp
  | case2 rest ih => exact List.forall_mem_cons.mpr ⟨.inr rfl, ih⟩
  | case3 c rest _ hword ih => exact List.forall_mem_cons.mpr ⟨.inl hword, ih⟩
  | case4 c rest _ _ _ ih => exact List.forall_mem_cons.mpr ⟨.inr rfl, ih⟩
  | case5 c rest _ _ _ _ ih => exact ih
  | case6 c rest _ _ _ _ ih => exact List.forall_mem_cons.mpr ⟨.inl (by decide), ih⟩

/-! ## Symbols -/

theorem isWordChar_or_separator_iff {c : Char} :
    isWordChar c = true ∨ c = '$' ↔ c.isAlphanum = true ∨ c = '_' ∨ c = '$' := by
  rw [isWordChar, Bool.or_eq_true, beq_iff_eq, or_assoc]

/-- `symbolOf` gives an `IsSymbol` for every key. -/
theorem isSymbol_symbolOf (key : String) : IsSymbol (symbolOf key) := by
  constructor
  · intro c hc
    rw [symbolOf, String.toList_ofList, mergeSeparators_eq_foldl] at hc
    have hkey := isWordChar_or_separator_of_mem_symbolChars key.toList
    exact isWordChar_or_separator_iff.mp (forall_mem_foldl_push (List.forall_mem_nil _) hkey c hc)
  · rw [symbolOf, String.toList_ofList, mergeSeparators_eq_foldl]
    exact apart_foldl_push (by decide) _

/-- `symbolOf` leaves every `IsSymbol` as it is. -/
theorem symbolOf_eq_self {text : String} (h : IsSymbol text) : symbolOf text = text := by
  have hchars : symbolChars text.toList = text.toList :=
    symbolChars_eq_self fun c hc => isWordChar_or_separator_iff.mpr (h.chars c hc)
  have hmerged : mergeSeparators text.toList = text.toList := by
    rw [mergeSeparators_eq_foldl]
    exact foldl_push_apart h.apart
  rw [symbolOf, hchars, hmerged, String.ofList_toList]

/-- `symbolOf` adds a word behind a key as its own part, after one separator. -/
theorem symbolOf_nested {outer inner : String} (houter : outer.toList.getLast? ≠ some ':')
    (hinner : ∀ c ∈ inner.toList, isWordChar c = true) :
    symbolOf (outer ++ "::" ++ inner) =
      symbolOf outer ++ (if (symbolOf outer).toList.getLast? = some '$' then "" else "$") ++ inner := by
  have hword : symbolChars inner.toList = inner.toList := symbolChars_eq_self fun c hc => .inl (hinner c hc)
  have hplain : '$' ∉ inner.toList := fun hmem => absurd (hinner _ hmem) (by decide)
  have hchars : symbolChars (outer ++ "::" ++ inner).toList = symbolChars outer.toList ++ '$' :: inner.toList := by
    have hcolons : "::".toList ++ inner.toList = ':' :: ':' :: inner.toList := rfl
    rw [String.toList_append, String.toList_append, List.append_assoc, symbolChars_append (.inl houter), hcolons,
      symbolChars, hword]
  apply String.toList_inj.mp
  rw [symbolOf, hchars, mergeSeparators_append, List.foldl_cons, foldl_push_plain _ hplain]
  simp only [String.toList_append, symbolOf, String.toList_ofList, push, true_and]
  split
  · simp
  · simp

/-- The normal form of `symbolOf`. `IsSymbol` are the texts of letters, digits, underscores and separators in which no
two separators are adjacent. The symbol of every key is one, and each of them is its own symbol, so `symbolOf` is
idempotent. A word that is written behind a key, after two colons, is added to the symbol of the key, after a separator
unless that symbol ends in one. -/
theorem symbolOf_normal_form :
    (∀ key, IsSymbol (symbolOf key)) ∧ (∀ text, IsSymbol text → symbolOf text = text) ∧
      (∀ key, symbolOf (symbolOf key) = symbolOf key) ∧ (∀ text, IsSymbol text ↔ ∃ key, symbolOf key = text) ∧
      ∀ outer inner : String, outer.toList.getLast? ≠ some ':' →
        (∀ c ∈ inner.toList, c.isAlphanum = true ∨ c = '_') →
        symbolOf (outer ++ "::" ++ inner) =
          symbolOf outer ++ (if (symbolOf outer).toList.getLast? = some '$' then "" else "$") ++ inner := by
  refine ⟨isSymbol_symbolOf, fun text h => symbolOf_eq_self h, fun key => symbolOf_eq_self (isSymbol_symbolOf key),
    fun text => ⟨fun h => ⟨text, symbolOf_eq_self h⟩, ?_⟩, fun outer inner houter hinner => ?_⟩
  · rintro ⟨key, rfl⟩
    exact isSymbol_symbolOf key
  · apply symbolOf_nested houter
    intro c hc
    rw [isWordChar, Bool.or_eq_true, beq_iff_eq]
    exact hinner c hc

/-- The separator that `symbolOf` leaves at the end of the key of a class is the one that stands before the method. A
blank between the two does not keep separators apart. -/
theorem symbolOf_nested_separator :
    IsSymbol "Map$u8$" ∧ symbolOf "Map<u8, >" = "Map$u8$" ∧ symbolOf "Map$u8$" = "Map$u8$" ∧
      symbolOf ("Map<u8, >" ++ "::" ++ "at") = "Map$u8$at" := by
  obtain ⟨hsymbol, hself, -, -, hnested⟩ := symbolOf_normal_form
  have houter : symbolOf "Map<u8, >" = "Map$u8$" := by decide
  have hkey : IsSymbol "Map$u8$" := houter ▸ hsymbol "Map<u8, >"
  have hword : ("at".toList.all fun c => c.isAlphanum || c == '_') = true := by decide
  have hinner : ∀ c ∈ "at".toList, c.isAlphanum = true ∨ c = '_' := by
    simpa only [Bool.or_eq_true, beq_iff_eq] using List.all_eq_true.mp hword
  refine ⟨hkey, houter, hself _ hkey, ?_⟩
  rw [hnested "Map<u8, >" "at" (by decide) hinner, houter]
  decide

end Ascribe.Instantiation
