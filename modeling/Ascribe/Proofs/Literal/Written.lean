import Mathlib.Data.List.TakeDrop
import Mathlib.Data.List.TakeWhile
import Mathlib.Data.Nat.Digits.Defs
import Ascribe.Literal.Integer
import Ascribe.Proofs.Primitive

/-!
# Integer literals as they are written

`Literal.Written` is the grammar of integer literals: a sign, a radix mark, digits of that radix with
underscores among them, and a suffix. Each literal has a text (`Written.text`) and a value (`Written.value`),
both given without the reader. A `Literal.StraySign` is a second sign before the digits, which the grammar does
not have and `Written.textWith` puts in.

## Key results

- `Literal.natOfDigits?_eq`: the number that a list of digits is read as, for every list of characters
- `Literal.natOfDigits?_glyphs`: digits with underscores among them are read as the number they denote
- `Literal.exists_glyphs`: characters that are read as a number are digits, once underscores are left out
- `Literal.exists_mark_of_splitRadix`, `Literal.splitSuffix?_eq_some_iff`: what the ends of a text are split into
-/

namespace Ascribe.Literal

/-! ## The grammar -/

/-- How a literal announces its radix; the letter of the mark may be a capital. -/
inductive Radix where
  | decimal
  | binary (capital : Bool)
  | octal (capital : Bool)
  | hexadecimal (capital : Bool)
  deriving DecidableEq, Repr

namespace Radix

def base : Radix → Nat
  | decimal => 10
  | binary _ => 2
  | octal _ => 8
  | hexadecimal _ => 16

def mark : Radix → List Char
  | decimal => []
  | binary capital => ['0', if capital then 'B' else 'b']
  | octal capital => ['0', if capital then 'O' else 'o']
  | hexadecimal capital => ['0', if capital then 'X' else 'x']

theorem mark_eq (radix : Radix) : radix.mark = [] ∨ ∃ letter, radix.mark = ['0', letter] := by
  cases radix <;> simp [mark]

theorem base_le (radix : Radix) : radix.base ≤ 16 := by
  cases radix <;> simp [base]

end Radix

/-- The character of a digit; a letter may be a capital. -/
def digitChar (value : Nat) (capital : Bool) : Char :=
  if capital then (Nat.digitChar value).toUpper else Nat.digitChar value

/-- One character among the digits. -/
inductive Glyph (base : Nat) where
  | underscore
  | digit (value : Fin base) (capital : Bool)
  deriving DecidableEq, Repr

namespace Glyph

variable {base : Nat}

def char : Glyph base → Char
  | underscore => '_'
  | digit value capital => digitChar value capital

def value? : Glyph base → Option (Fin base)
  | underscore => none
  | digit value _ => some value

/-- The digits of a text, without the underscores. -/
def digits (glyphs : List (Glyph base)) : List (Fin base) :=
  glyphs.filterMap value?

/-- The number that digits denote, the most significant one first. -/
def number (glyphs : List (Glyph base)) : Nat :=
  Nat.ofDigits base ((digits glyphs).map Fin.val).reverse

end Glyph

/-- An integer literal of the grammar. -/
structure Written where
  isNegative : Bool := false
  radix : Radix := .decimal
  glyphs : List (Glyph radix.base)
  suffix : Option Primitive := none
  hasDigit : Glyph.digits glyphs ≠ [] := by decide
  isInteger : ∀ kind ∈ suffix, kind.isInteger = true := by decide

/-- A second sign: it stands before the first digit, and underscores may stand before it. -/
structure StraySign where
  underscores : Nat := 0
  isNegative : Bool := true
  deriving DecidableEq, Repr

def signChar (isNegative : Bool) : Char :=
  if isNegative then '-' else '+'

def StraySign.chars (stray : StraySign) : List Char :=
  List.replicate stray.underscores '_' ++ [signChar stray.isNegative]

def strayChars (stray : Option StraySign) : List Char :=
  stray.elim [] StraySign.chars

def suffixChars (suffix : Option Primitive) : List Char :=
  suffix.elim [] (·.name.toList)

namespace Written

variable (w : Written)

/-- A literal after its sign, with `stray` put in before the digits. -/
def bodyWith (stray : Option StraySign) : List Char :=
  w.radix.mark ++ (strayChars stray ++ (w.glyphs.map Glyph.char ++ suffixChars w.suffix))

def charsWith (stray : Option StraySign) : List Char :=
  if w.isNegative then '-' :: w.bodyWith stray else w.bodyWith stray

/-- The text of a literal. -/
def text : String :=
  String.ofList (w.charsWith none)

/-- The text of a literal with a second sign in it. -/
def textWith (stray : StraySign) : String :=
  String.ofList (w.charsWith (some stray))

/-- The natural number that the digits of a literal denote. -/
def magnitude : Nat :=
  Glyph.number w.glyphs

def value : Int :=
  if w.isNegative then -w.magnitude else w.magnitude

end Written

/-! ## Digits -/

/-- `digitValue? base` is `digitValue? 16`, restricted to the values below `base`. -/
theorem digitValue?_eq_filter {base : Nat} (hbase : base ≤ 16) (c : Char) :
    digitValue? base c = (digitValue? 16 c).filter (· < base) := by
  simp only [digitValue?, Option.filter_filter]
  congr 1
  funext value
  rw [Bool.eq_iff_iff]
  simp only [decide_eq_true_eq, Bool.and_eq_true]
  omega

theorem digitValue?_digitChar {base value : Nat} (hbase : base ≤ 16) (hvalue : value < base) (capital : Bool) :
    digitValue? base (digitChar value capital) = some value := by
  have hsixteen : ∀ (v : Fin 16) (capital : Bool), digitValue? 16 (digitChar v capital) = some v.val := by
    decide +kernel
  rw [digitValue?_eq_filter hbase, hsixteen ⟨value, by omega⟩ capital]
  simp [hvalue]

theorem eq_ofNat_of_toNat {c : Char} {n : Nat} (h : c.toNat = n) : c = Char.ofNat n := by
  rw [← h, Char.ofNat_toNat]

theorem exists_digitChar {base value : Nat} {c : Char} (hbase : base ≤ 16) (h : digitValue? base c = some value) :
    value < base ∧ ∃ capital, c = digitChar value capital := by
  obtain ⟨hraw, hlt⟩ := Option.filter_eq_some_iff.1 h
  have hvalue : value < base := by simpa using hlt
  refine ⟨hvalue, ?_⟩
  have hrange : ∀ v < 16, (v < 10 → Char.ofNat (v + 48) = digitChar v false) ∧
      (10 ≤ v → Char.ofNat (v + 87) = digitChar v false ∧ Char.ofNat (v + 55) = digitChar v true) := by
    decide +kernel
  obtain ⟨hdecimal, hletter⟩ := hrange value (by omega)
  split_ifs at hraw with hdigit hlower hupper <;> simp only [Option.some.injEq] at hraw
  · change c.toNat - 48 = value at hraw
    have hbounds : 48 ≤ c.toNat ∧ c.toNat ≤ 57 := by
      simpa [Char.isDigit, UInt32.le_iff_toNat_le] using hdigit
    exact ⟨false, (eq_ofNat_of_toNat (by omega)).trans (hdecimal (by omega))⟩
  · change c.toNat - 97 + 10 = value at hraw
    have hbound : 97 ≤ c.toNat := by
      simpa [Char.le_def, UInt32.le_iff_toNat_le] using hlower.1
    exact ⟨false, (eq_ofNat_of_toNat (by omega)).trans (hletter (by omega)).1⟩
  · change c.toNat - 65 + 10 = value at hraw
    have hbound : 65 ≤ c.toNat := by
      simpa [Char.le_def, UInt32.le_iff_toNat_le] using hupper.1
    exact ⟨true, (eq_ofNat_of_toNat (by omega)).trans (hletter (by omega)).2⟩

theorem digitChar_ne_underscore {value : Nat} (hvalue : value < 16) (capital : Bool) :
    digitChar value capital ≠ '_' := by
  have hsixteen : ∀ (v : Fin 16) (capital : Bool), digitChar v capital ≠ '_' := by
    decide +kernel
  exact hsixteen ⟨value, hvalue⟩ capital

/-! ## Characters that keep the parts apart -/

def isSign (c : Char) : Bool :=
  c == '+' || c == '-'

def isMarkLetter (c : Char) : Bool :=
  ['x', 'X', 'b', 'B', 'o', 'O'].contains c

def startsSuffix (c : Char) : Bool :=
  c == 'u' || c == 'i'

theorem Glyph.isSign_char {base : Nat} (hbase : base ≤ 16) (glyph : Glyph base) : isSign glyph.char = false := by
  have hsixteen : ∀ (v : Fin 16) (capital : Bool), isSign (digitChar v capital) = false := by
    decide +kernel
  cases glyph with
  | underscore => rfl
  | digit value capital => exact hsixteen ⟨value, by omega⟩ capital

theorem Glyph.startsSuffix_char {base : Nat} (hbase : base ≤ 16) (glyph : Glyph base) :
    startsSuffix glyph.char = false := by
  have hsixteen : ∀ (v : Fin 16) (capital : Bool), startsSuffix (digitChar v capital) = false := by
    decide +kernel
  cases glyph with
  | underscore => rfl
  | digit value capital => exact hsixteen ⟨value, by omega⟩ capital

/-- No decimal digit is taken for a mark; the digit `b` would be. -/
theorem Glyph.isMarkLetter_char {base : Nat} (hbase : base ≤ 10) (glyph : Glyph base) :
    isMarkLetter glyph.char = false := by
  have hten : ∀ (v : Fin 10) (capital : Bool), isMarkLetter (digitChar v capital) = false := by
    decide +kernel
  cases glyph with
  | underscore => rfl
  | digit value capital => exact hten ⟨value, by omega⟩ capital

theorem startsSuffix_of_mem_strayChars {stray : Option StraySign} {c : Char} (h : c ∈ strayChars stray) :
    startsSuffix c = false ∧ isMarkLetter c = false := by
  cases stray with
  | none => simp [strayChars] at h
  | some stray =>
    rcases List.mem_append.1 h with hunderscore | hsign
    · rw [List.eq_of_mem_replicate hunderscore]
      decide
    · rw [List.mem_singleton.1 hsign]
      cases stray.isNegative <;> decide

theorem Radix.isSign_of_mem {radix : Radix} {c : Char} (h : c ∈ radix.mark) : isSign c = false := by
  have hmark : radix.mark.all (!isSign ·) = true := by
    cases radix with
    | decimal => rfl
    | binary capital | octal capital | hexadecimal capital => cases capital <;> rfl
  simpa using List.all_eq_true.1 hmark c h

theorem isSign_of_mem_suffixChars {suffix : Option Primitive} (hsuffix : ∀ kind ∈ suffix, kind.isInteger = true)
    {c : Char} (h : c ∈ suffixChars suffix) : isSign c = false ∧ isMarkLetter c = false := by
  have hall : ∀ kind ∈ Primitive.all, kind.isInteger = true →
      (suffixChars (some kind)).all (fun c => !isSign c && !isMarkLetter c) = true := by
    decide +kernel
  cases suffix with
  | none => simp [suffixChars] at h
  | some kind => simpa using List.all_eq_true.1 (hall kind kind.mem_all (hsuffix kind rfl)) c h

/-! ## Numbers -/

/-- `natOfDigits?` shifts `acc` by the digits it reads and adds `Nat.ofDigits` of them. -/
theorem natOfDigits?_eq (base acc : Nat) (chars : List Char) :
    natOfDigits? base acc chars = (chars.mapM (digitValue? base)).map fun values =>
      acc * base ^ values.length + Nat.ofDigits base values.reverse := by
  induction chars generalizing acc with
  | nil => simp [natOfDigits?]
  | cons c rest ih =>
    rw [natOfDigits?, List.mapM_cons]
    cases digitValue? base c with
    | none => rfl
    | some d =>
      simp only [Option.bind_eq_bind, Option.bind_some, ih]
      cases rest.mapM (digitValue? base) with
      | none => rfl
      | some values =>
        simp [Nat.ofDigits_append, pow_succ]
        ring

/-- `digitValue?` reads the characters of glyphs, without the underscores, as `Glyph.digits`. -/
theorem mapM_digitValue?_glyphs {base : Nat} (hbase : base ≤ 16) (glyphs : List (Glyph base)) :
    ((glyphs.map Glyph.char).filter (· != '_')).mapM (digitValue? base)
      = some ((Glyph.digits glyphs).map Fin.val) := by
  induction glyphs with
  | nil => rfl
  | cons glyph rest ih =>
    cases glyph with
    | underscore => exact ih
    | digit value capital =>
      have hne := digitChar_ne_underscore (value.isLt.trans_le hbase) capital
      rw [List.map_cons, Glyph.char, List.filter_cons_of_pos (by simpa using hne), List.mapM_cons,
        digitValue?_digitChar hbase value.isLt, ih]
      rfl

theorem natOfDigits?_glyphs {base : Nat} (hbase : base ≤ 16) (glyphs : List (Glyph base)) :
    natOfDigits? base 0 ((glyphs.map Glyph.char).filter (· != '_')) = some (Glyph.number glyphs) := by
  simp [natOfDigits?_eq, mapM_digitValue?_glyphs hbase, Glyph.number]

/-- Characters that `digitValue?` reads once the underscores are left out are those of some `Glyph`s. -/
theorem exists_glyphs_of_mapM {base : Nat} (hbase : base ≤ 16) {chars : List Char} {values : List Nat}
    (h : (chars.filter (· != '_')).mapM (digitValue? base) = some values) :
    ∃ glyphs : List (Glyph base), chars = glyphs.map Glyph.char ∧ (Glyph.digits glyphs).map Fin.val = values := by
  induction chars generalizing values with
  | nil => exact ⟨[], rfl, by simpa [Glyph.digits] using h⟩
  | cons c rest ih =>
    by_cases hc : c = '_'
    · subst hc
      obtain ⟨glyphs, rfl, hvalues⟩ := ih (by simpa using h)
      exact ⟨.underscore :: glyphs, rfl, hvalues⟩
    · rw [List.filter_cons_of_pos (by simpa using hc), List.mapM_cons] at h
      simp only [Option.bind_eq_bind, Option.bind_eq_some_iff, Option.pure_def, Option.some.injEq] at h
      obtain ⟨d, hd, values, hrest, rfl⟩ := h
      obtain ⟨glyphs, rfl, rfl⟩ := ih hrest
      obtain ⟨hlt, capital, rfl⟩ := exists_digitChar hbase hd
      exact ⟨.digit ⟨d, hlt⟩ capital :: glyphs, rfl, rfl⟩

theorem exists_glyphs {base : Nat} (hbase : base ≤ 16) {chars : List Char} {n : Nat}
    (h : natOfDigits? base 0 (chars.filter (· != '_')) = some n) :
    ∃ glyphs : List (Glyph base), chars = glyphs.map Glyph.char ∧ Glyph.number glyphs = n := by
  rw [natOfDigits?_eq] at h
  obtain ⟨values, hvalues, rfl⟩ := Option.map_eq_some_iff.1 h
  obtain ⟨glyphs, rfl, rfl⟩ := exists_glyphs_of_mapM hbase hvalues
  exact ⟨glyphs, rfl, by simp [Glyph.number]⟩

theorem filter_glyphs_eq_nil_iff {base : Nat} (hbase : base ≤ 16) {glyphs : List (Glyph base)} :
    (glyphs.map Glyph.char).filter (· != '_') = [] ↔ Glyph.digits glyphs = [] := by
  have hvalues := mapM_digitValue?_glyphs hbase glyphs
  constructor
  · intro hnil
    simpa [hnil] using hvalues.symm
  · intro hnil
    rw [hnil] at hvalues
    cases hchars : (glyphs.map Glyph.char).filter (· != '_') with
    | nil => rfl
    | cons c rest => simp [hchars, Option.bind_eq_some_iff] at hvalues

/-! ## The two ends of a text -/

theorem exists_mark_of_splitRadix (chars : List Char) :
    ∃ radix : Radix, (splitRadix chars).1 = radix.base ∧ chars = radix.mark ++ (splitRadix chars).2 := by
  fun_cases splitRadix chars with
  | case1 => exact ⟨.hexadecimal false, rfl, rfl⟩
  | case2 => exact ⟨.hexadecimal true, rfl, rfl⟩
  | case3 => exact ⟨.binary false, rfl, rfl⟩
  | case4 => exact ⟨.binary true, rfl, rfl⟩
  | case5 => exact ⟨.octal false, rfl, rfl⟩
  | case6 => exact ⟨.octal true, rfl, rfl⟩
  | case7 => exact ⟨.decimal, rfl, rfl⟩

/-- `splitRadix` takes the `mark` of a radix off, and takes no decimal digit for one. -/
theorem splitRadix_mark (radix : Radix) {chars : List Char}
    (h : radix = .decimal → ∀ c ∈ chars, isMarkLetter c = false) :
    splitRadix (radix.mark ++ chars) = (radix.base, chars) := by
  cases radix with
  | decimal =>
    replace h := h rfl
    change splitRadix chars = (10, chars)
    fun_cases splitRadix chars <;> simp_all [isMarkLetter]
  | binary capital => cases capital <;> rfl
  | octal capital => cases capital <;> rfl
  | hexadecimal capital => cases capital <;> rfl

theorem integerOfName?_eq_some_iff {name : String} {kind : Primitive} :
    Primitive.integerOfName? name = some kind ↔ kind.name = name ∧ kind.isInteger = true := by
  constructor
  · intro h
    refine ⟨by simpa using List.find?_some h, ?_⟩
    exact (by decide : ∀ kind ∈ Primitive.integers, kind.isInteger = true) kind (List.mem_of_find?_eq_some h)
  · rintro ⟨rfl, hkind⟩
    exact (by decide : ∀ kind ∈ Primitive.all, kind.isInteger = true →
      Primitive.integerOfName? kind.name = some kind) kind kind.mem_all hkind

theorem exists_suffixChars {kind : Primitive} (h : kind.isInteger = true) :
    ∃ c rest, suffixChars (some kind) = c :: rest ∧ startsSuffix c = true := by
  cases kind <;> first | exact ⟨_, _, rfl, by decide⟩ | contradiction

theorem splitSuffix?_eq_some_iff {chars digits : List Char} {suffix : Option Primitive} :
    splitSuffix? chars = some (digits, suffix) ↔
      chars = digits ++ suffixChars suffix ∧ (∀ c ∈ digits, startsSuffix c = false) ∧
        ∀ kind ∈ suffix, kind.isInteger = true := by
  have htest : (fun c : Char => c != 'u' && c != 'i') = (!startsSuffix ·) := by
    funext c
    simp [startsSuffix, bne]
  rw [splitSuffix?, List.span_eq_takeWhile_dropWhile, htest]
  constructor
  · intro h
    have hsplit := List.takeWhile_append_dropWhile (p := (!startsSuffix ·)) (l := chars)
    have hfront : ∀ c ∈ chars.takeWhile (!startsSuffix ·), startsSuffix c = false :=
      fun c hc => by simpa using List.mem_takeWhile_imp hc
    generalize chars.takeWhile (!startsSuffix ·) = front at h hsplit hfront
    generalize chars.dropWhile (!startsSuffix ·) = back at h hsplit
    subst hsplit
    cases back with
    | nil =>
      obtain ⟨rfl, rfl⟩ : front = digits ∧ none = suffix := by simpa using h
      exact ⟨rfl, hfront, by simp⟩
    | cons c rest =>
      obtain ⟨kind, hkind, hpair⟩ := Option.map_eq_some_iff.1 h
      obtain ⟨rfl, rfl⟩ : front = digits ∧ some kind = suffix := by simpa using hpair
      obtain ⟨hname, hinteger⟩ := integerOfName?_eq_some_iff.1 hkind
      exact ⟨by simp [suffixChars, hname], hfront, by simpa using hinteger⟩
  · rintro ⟨rfl, hdigits, hsuffix⟩
    have hpass : ∀ c ∈ digits, (!startsSuffix c) = true := by simpa using hdigits
    rw [List.takeWhile_append_of_pos hpass, List.dropWhile_append_of_pos hpass]
    cases suffix with
    | none => simp [suffixChars]
    | some kind =>
      obtain ⟨c, rest, hchars, hstop⟩ := exists_suffixChars (hsuffix kind rfl)
      have hkind : Primitive.integerOfName? (String.ofList (c :: rest)) = some kind := by
        rw [← hchars, suffixChars, Option.elim_some, String.ofList_toList]
        exact integerOfName?_eq_some_iff.2 ⟨rfl, hsuffix kind rfl⟩
      simp only [hchars, List.takeWhile_cons, List.dropWhile_cons, hstop, Bool.not_true, Bool.false_eq_true,
        if_false, List.append_nil, hkind, Option.map_some]

end Ascribe.Literal
