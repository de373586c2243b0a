import Ascribe.Proofs.Literal.Written

/-!
# Reading integer literals

Every literal of the grammar is read as its value, unless the value does not fit a word or the suffix. Conversely,
what is read is a literal of the grammar, except that the digits may carry a sign of their own besides the one the
text starts with. So `--5` is read as 5, and a second minus can turn the digits into the least word, whose negation
is no word. Without such a stray sign no negation leaves the word.

The reader takes a text apart from both ends. Its number before the leading minus is applied (`bareValue?`) is related
to the grammar in both directions: it is computed on every literal, with or without a stray sign, and a text that has
one is put together again from the parts.

## Key results

- `Literal.readInteger_text`: every outcome of reading a literal of the grammar
- `Literal.readInteger_accepts`: what texts are read, and which negations leave the word
- `Literal.Written.bareValue?_charsWith`, `Literal.exists_written_of_bareValue?`: the two directions
-/

namespace Ascribe.Literal

/-! ## Words of 128 bits -/

/-- The values of a signed word of 128 bits. -/
def FitsWord (value : Int) : Prop :=
  -2 ^ 127 ≤ value ∧ value < 2 ^ 127

instance (value : Int) : Decidable (FitsWord value) :=
  inferInstanceAs (Decidable (_ ∧ _))

theorem negate128_eq {value : Int} (h : FitsWord (-value)) : negate128 value = -value := by
  obtain ⟨hleast, hgreatest⟩ := h
  have hbound : ((2 * wordBound : Nat) : Int) = 2 ^ 128 := by norm_num [wordBound]
  exact Int.bmod_eq_of_le_mul_two (by omega) (by omega)

/-! ## Signed digits -/

/-- The characters of a sign that may be missing. -/
def signChars (sign : Option Bool) : List Char :=
  (sign.map signChar).toList

/-- A number under a sign that may be missing. -/
def signed : Option Bool → Nat → Int
  | some true, n => -n
  | _, n => n

theorem fitsWord_natCast_iff {n : Nat} : FitsWord n ↔ n < wordBound := by
  have hword : wordBound = 2 ^ 127 := rfl
  unfold FitsWord
  omega

theorem fitsWord_neg_natCast_iff {n : Nat} : FitsWord (-n) ↔ n ≤ wordBound := by
  have hword : wordBound = 2 ^ 127 := rfl
  unfold FitsWord
  omega

/-- `signedOfDigits?` reads nonempty digits under a sign as `natOfDigits?` does, if the signed number is `FitsWord`. -/
theorem signedOfDigits?_eq {base : Nat} {sign : Option Bool} {digits : List Char} (hne : digits ≠ [])
    (hsign : sign = none → ∀ c ∈ digits.head?, isSign c = false) :
    signedOfDigits? base (signChars sign ++ digits) = (natOfDigits? base 0 digits).bind fun n =>
      if FitsWord (signed sign n) then some (signed sign n) else none := by
  obtain ⟨c, rest, rfl⟩ := List.exists_cons_of_ne_nil hne
  rcases sign with _ | _ | _
  · obtain ⟨hplus, hminus⟩ : c ≠ '+' ∧ c ≠ '-' := by simpa [isSign] using hsign rfl c rfl
    simp only [signChars, signed, fitsWord_natCast_iff]
    rw [Option.map_none, Option.toList_none, List.nil_append, signedOfDigits?]
    · rfl
    all_goals simp [hplus, hminus]
  · simp only [signed, fitsWord_natCast_iff]
    rfl
  · simp only [signed, fitsWord_neg_natCast_iff]
    rfl

/-- Every text is `signChars` of at most one sign, followed by digits that do not start with one. -/
theorem exists_signChars (chars : List Char) :
    ∃ sign digits, chars = signChars sign ++ digits ∧ (sign = none → ∀ c ∈ digits.head?, isSign c = false) := by
  by_cases hplus : chars.head? = some '+'
  · obtain ⟨rest, rfl⟩ := List.head?_eq_some_iff.1 hplus
    exact ⟨some false, rest, rfl, by simp⟩
  · by_cases hminus : chars.head? = some '-'
    · obtain ⟨rest, rfl⟩ := List.head?_eq_some_iff.1 hminus
      exact ⟨some true, rest, rfl, by simp⟩
    · refine ⟨none, chars, rfl, fun _ c hc => ?_⟩
      rw [Option.mem_def.1 hc] at hplus hminus
      simpa [isSign] using And.intro hplus hminus

theorem exists_sign_of_signedOfDigits? {base : Nat} {chars : List Char} {value : Int}
    (h : signedOfDigits? base chars = some value) :
    ∃ sign digits n, chars = signChars sign ++ digits ∧ digits ≠ [] ∧ natOfDigits? base 0 digits = some n ∧
      value = signed sign n ∧ FitsWord value := by
  obtain ⟨sign, digits, rfl, hsign⟩ := exists_signChars chars
  -- a sign alone is not read
  have hne : digits ≠ [] := by
    rintro rfl
    rcases sign with _ | _ | _ <;> cases h
  rw [signedOfDigits?_eq hne hsign] at h
  obtain ⟨n, hn, hfits⟩ := Option.bind_eq_some_iff.1 h
  split_ifs at hfits with hword
  cases hfits
  exact ⟨sign, digits, n, rfl, hne, hn, rfl, hword⟩

/-! ## Stray signs -/

/-- A text without the minus it may start with. -/
def dropMinus : List Char → List Char
  | '-' :: rest => rest
  | chars => chars

/-- Whether a text has a sign besides the minus it may start with. -/
def hasStraySign (chars : List Char) : Bool :=
  (dropMinus chars).any isSign

theorem dropMinus_of_head? {chars : List Char} (h : chars.head? ≠ some '-') : dropMinus chars = chars := by
  fun_cases dropMinus chars with
  | case1 rest => exact absurd rfl h
  | case2 => rfl

namespace Written

variable (w : Written) {stray : Option StraySign}

theorem any_isSign_digits : (w.glyphs.map Glyph.char ++ suffixChars w.suffix).any isSign = false := by
  refine List.any_eq_false.2 fun c hc => ?_
  rcases List.mem_append.1 hc with hglyph | hsuffix
  · obtain ⟨glyph, -, rfl⟩ := List.mem_map.1 hglyph
    simp [glyph.isSign_char w.radix.base_le]
  · simp [isSign_of_mem_suffixChars w.isInteger hsuffix]

/-- `bodyWith stray` contains a sign exactly if there is a stray one. -/
theorem any_isSign_bodyWith : (w.bodyWith stray).any isSign = stray.isSome := by
  have hmark : w.radix.mark.any isSign = false :=
    List.any_eq_false.2 fun c hc => by simp [Radix.isSign_of_mem hc]
  rw [bodyWith, List.any_append, List.any_append, hmark, any_isSign_digits, Bool.false_or, Bool.or_false]
  rcases stray with _ | ⟨underscores, _ | _⟩ <;> simp [strayChars, StraySign.chars, signChar, isSign]

/-- A minus at the start of a literal is its sign. -/
def LeadsWith (stray : Option StraySign) : Prop :=
  (w.charsWith stray).head? = some '-' → w.isNegative = true

theorem dropMinus_charsWith (h : w.LeadsWith stray) : dropMinus (w.charsWith stray) = w.bodyWith stray := by
  by_cases hneg : w.isNegative = true
  · rw [charsWith, if_pos hneg]
    rfl
  · have hhead := mt h hneg
    rw [charsWith, if_neg hneg] at hhead ⊢
    exact dropMinus_of_head? hhead

theorem hasStraySign_charsWith (h : w.LeadsWith stray) : hasStraySign (w.charsWith stray) = stray.isSome := by
  rw [hasStraySign, w.dropMinus_charsWith h, any_isSign_bodyWith]

/-- A stray sign that `hasStraySign` finds does not stand at the start of the text, so `LeadsWith` holds. -/
theorem leadsWith_of_hasStraySign {stray : StraySign} (h : hasStraySign (w.charsWith (some stray)) = true) :
    w.LeadsWith (some stray) := by
  intro hhead
  by_contra hneg
  rw [charsWith, if_neg hneg] at h hhead
  rcases w.radix.mark_eq with hmark | ⟨letter, hmark⟩
  · -- a minus right at the start of decimal digits is dropped, and no other sign is left
    obtain ⟨_ | underscores, _ | _⟩ := stray
    · simp [bodyWith, hmark, strayChars, StraySign.chars, signChar] at hhead
    · have hbody : w.bodyWith (some ⟨0, true⟩) = '-' :: (w.glyphs.map Glyph.char ++ suffixChars w.suffix) := by
        rw [bodyWith, hmark]
        rfl
      rw [hbody, hasStraySign, dropMinus, any_isSign_digits] at h
      cases h
    all_goals simp [bodyWith, hmark, strayChars, StraySign.chars, List.replicate_succ] at hhead
  · simp [bodyWith, hmark] at hhead

theorem leadsWith_none : w.LeadsWith none := by
  intro hhead
  by_contra hneg
  rw [charsWith, if_neg hneg] at hhead
  have hany : (w.bodyWith none).any isSign = false := w.any_isSign_bodyWith
  exact List.any_eq_false.1 hany '-' (List.mem_of_mem_head? hhead) rfl

end Written

/-! ## The number before its sign -/

/-- The number that a text stands for before its own minus is applied, and its suffix. -/
def bareValue? (chars : List Char) : Option Integer := do
  let (digits, suffix) ← splitSuffix? (splitRadix (dropMinus chars)).2
  let value ← signedOfDigits? (splitRadix (dropMinus chars)).1 (digits.filter (· != '_'))
  return ⟨value, suffix⟩

/-- `integerParts?` is `bareValue?`, with the value negated by `negate128` if the text starts with a minus. -/
theorem integerParts?_eq (chars : List Char) :
    integerParts? chars = (bareValue? chars).map fun bare =>
      ⟨if chars.head? = some '-' then negate128 bare.value else bare.value, bare.suffix⟩ := by
  by_cases hhead : chars.head? = some '-'
  · obtain ⟨rest, rfl⟩ := List.head?_eq_some_iff.1 hhead
    simp [integerParts?, bareValue?, dropMinus, Option.map_bind]
  · unfold integerParts?
    split
    rename_i negative rest hsplit
    split at hsplit
    · exact absurd rfl hhead
    · obtain ⟨rfl, rfl⟩ := Prod.mk.inj hsplit
      simp [bareValue?, dropMinus_of_head? hhead, hhead, Option.map_bind]

namespace Written

variable (w : Written) {stray : Option StraySign}

/-- The number of a literal under its second sign. -/
def bareValue (stray : Option StraySign) : Int :=
  signed (stray.map StraySign.isNegative) w.magnitude

theorem splitRadix_bodyWith : splitRadix (w.bodyWith stray)
    = (w.radix.base, strayChars stray ++ (w.glyphs.map Glyph.char ++ suffixChars w.suffix)) := by
  refine splitRadix_mark w.radix fun hdecimal c hc => ?_
  have hbase : w.radix.base ≤ 10 := by simp [hdecimal, Radix.base]
  rcases List.mem_append.1 hc with hstray | hc
  · exact (startsSuffix_of_mem_strayChars hstray).2
  rcases List.mem_append.1 hc with hglyph | hsuffix
  · obtain ⟨glyph, -, rfl⟩ := List.mem_map.1 hglyph
    exact glyph.isMarkLetter_char hbase
  · exact (isSign_of_mem_suffixChars w.isInteger hsuffix).2

theorem splitSuffix?_bodyWith :
    splitSuffix? (strayChars stray ++ (w.glyphs.map Glyph.char ++ suffixChars w.suffix))
      = some (strayChars stray ++ w.glyphs.map Glyph.char, w.suffix) := by
  refine splitSuffix?_eq_some_iff.2 ⟨(List.append_assoc ..).symm, fun c hc => ?_, w.isInteger⟩
  rcases List.mem_append.1 hc with hstray | hglyph
  · exact (startsSuffix_of_mem_strayChars hstray).1
  · obtain ⟨glyph, -, rfl⟩ := List.mem_map.1 hglyph
    exact glyph.startsSuffix_char w.radix.base_le

theorem filter_stray (stray : Option StraySign) (chars : List Char) :
    (strayChars stray ++ chars).filter (· != '_')
      = signChars (stray.map StraySign.isNegative) ++ chars.filter (· != '_') := by
  rcases stray with _ | ⟨underscores, _ | _⟩ <;> simp [strayChars, StraySign.chars, signChars, signChar]

theorem bareValue?_charsWith (h : w.LeadsWith stray) :
    bareValue? (w.charsWith stray)
      = if FitsWord (w.bareValue stray) then some ⟨w.bareValue stray, w.suffix⟩ else none := by
  have hdigits : (w.glyphs.map Glyph.char).filter (· != '_') ≠ [] :=
    mt (filter_glyphs_eq_nil_iff w.radix.base_le).1 w.hasDigit
  have hsign : ∀ c ∈ ((w.glyphs.map Glyph.char).filter (· != '_')).head?, isSign c = false := by
    intro c hc
    obtain ⟨glyph, -, rfl⟩ := List.mem_map.1 (List.mem_filter.1 (List.mem_of_mem_head? hc)).1
    exact glyph.isSign_char w.radix.base_le
  simp only [bareValue?, w.dropMinus_charsWith h, splitRadix_bodyWith, splitSuffix?_bodyWith, filter_stray,
    Option.bind_eq_bind, Option.bind_some, signedOfDigits?_eq hdigits fun _ => hsign,
    natOfDigits?_glyphs w.radix.base_le]
  change (if FitsWord (w.bareValue stray) then some (w.bareValue stray) else none).bind _ = _
  split_ifs <;> rfl

end Written

/-- A sign in front of the text without underscores is a `StraySign` of the text with them. -/
theorem exists_stray_of_filter {chars digits : List Char} {sign : Option Bool}
    (h : chars.filter (· != '_') = signChars sign ++ digits) :
    ∃ (stray : Option StraySign) (rest : List Char), chars = strayChars stray ++ rest ∧
      stray.map StraySign.isNegative = sign ∧ rest.filter (· != '_') = digits := by
  cases sign with
  | none => exact ⟨none, chars, rfl, rfl, h⟩
  | some isNegative =>
    obtain ⟨front, rest, rfl, hfront, -, hrest⟩ := List.filter_eq_cons_iff.1 h
    have hunderscores : front = List.replicate front.length '_' :=
      List.eq_replicate_iff.2 ⟨rfl, by simpa using hfront⟩
    refine ⟨some ⟨front.length, isNegative⟩, rest, ?_, rfl, hrest⟩
    simp [strayChars, StraySign.chars, ← hunderscores]

theorem eq_of_dropMinus (chars : List Char) :
    (if chars.head? == some '-' then '-' :: dropMinus chars else dropMinus chars) = chars := by
  by_cases hhead : chars.head? = some '-'
  · obtain ⟨rest, rfl⟩ := List.head?_eq_some_iff.1 hhead
    rfl
  · simp [hhead, dropMinus_of_head? hhead]

/-- A text with a `bareValue?` is a `Written` literal with at most one stray sign in it. -/
theorem exists_written_of_bareValue? {chars : List Char} {bare : Integer} (h : bareValue? chars = some bare) :
    ∃ (w : Written) (stray : Option StraySign), chars = w.charsWith stray ∧ w.LeadsWith stray ∧
      bare = ⟨w.bareValue stray, w.suffix⟩ ∧ FitsWord bare.value := by
  simp only [bareValue?, Option.bind_eq_bind, Option.bind_eq_some_iff, Prod.exists, Option.pure_def,
    Option.some.injEq] at h
  obtain ⟨digits, suffix, hsuffix, value, hvalue, rfl⟩ := h
  -- the text is put together again from its ends inwards
  obtain ⟨radix, hbase, hmark⟩ := exists_mark_of_splitRadix (dropMinus chars)
  obtain ⟨hrest, -, hinteger⟩ := splitSuffix?_eq_some_iff.1 hsuffix
  rw [hbase] at hvalue
  obtain ⟨sign, numerals, n, hfilter, hne, hn, rfl, hfits⟩ := exists_sign_of_signedOfDigits? hvalue
  obtain ⟨stray, tail, rfl, rfl, rfl⟩ := exists_stray_of_filter hfilter
  obtain ⟨glyphs, rfl, rfl⟩ := exists_glyphs radix.base_le hn
  rw [hrest, List.append_assoc] at hmark
  let w : Written :=
    { isNegative := chars.head? == some '-', radix, glyphs, suffix
      hasDigit := mt (filter_glyphs_eq_nil_iff radix.base_le).2 hne
      isInteger := hinteger }
  have hchars : w.charsWith stray = chars := by
    have hbody : w.bodyWith stray = dropMinus chars := hmark.symm
    rw [Written.charsWith, hbody]
    exact eq_of_dropMinus chars
  refine ⟨w, stray, hchars.symm, fun hhead => ?_, rfl, hfits⟩
  rw [hchars] at hhead
  simp [w, hhead]

/-! ## Every literal of the grammar is read -/

namespace Written

variable (w : Written) {stray : Option StraySign}

/-- What a literal with a second sign is read as. -/
def valueWith (stray : Option StraySign) : Int :=
  if w.isNegative then negate128 (w.bareValue stray) else w.bareValue stray

theorem head?_charsWith_iff (h : w.LeadsWith stray) :
    (w.charsWith stray).head? = some '-' ↔ w.isNegative = true :=
  ⟨h, fun hneg => by rw [charsWith, if_pos hneg]; rfl⟩

theorem integerParts?_charsWith (h : w.LeadsWith stray) :
    integerParts? (w.charsWith stray)
      = if FitsWord (w.bareValue stray) then some ⟨w.valueWith stray, w.suffix⟩ else none := by
  simp only [integerParts?_eq, w.bareValue?_charsWith h, w.head?_charsWith_iff h]
  by_cases hfits : FitsWord (w.bareValue stray)
  · simp [hfits, valueWith]
  · simp [hfits]

theorem fitsWord_bareValue_none_iff : FitsWord (w.bareValue none) ↔ w.magnitude < 2 ^ 127 :=
  fitsWord_natCast_iff

theorem valueWith_none (h : FitsWord (w.bareValue none)) : w.valueWith none = w.value := by
  have hneg : FitsWord (-w.bareValue none) :=
    fitsWord_neg_natCast_iff.2 (fitsWord_natCast_iff.1 h).le
  rw [valueWith, negate128_eq hneg]
  rfl

end Written

/-- `readInteger` succeeds exactly if `integerParts?` does and the suffix `Holds` the value. -/
theorem readInteger_eq_ok_iff {text : String} {literal : Integer} :
    readInteger text = .ok literal ↔
      integerParts? text.toList = some literal ∧ ∀ kind ∈ literal.suffix, kind.Holds literal.value := by
  simp only [← Primitive.fits_iff_holds]
  cases hparts : integerParts? text.toList with
  | none => simp [readInteger, hparts]
  | some parts =>
    obtain ⟨value, _ | kind⟩ := parts
    · simp only [readInteger, hparts, Except.ok.injEq, Option.some.injEq]
      exact ⟨fun h => ⟨h, by simp [← h]⟩, And.left⟩
    · simp only [readInteger, hparts]
      split_ifs with hfits
      · simp only [Except.ok.injEq, Option.some.injEq]
        exact ⟨fun h => ⟨h, by simpa [← h] using hfits⟩, And.left⟩
      · refine ⟨False.elim, ?_⟩
        rintro ⟨hliteral, hall⟩
        cases hliteral
        exact hfits (hall kind rfl)

/-- A literal of the grammar is read as its value, if its digits denote less than `2 ^ 127` and its suffix can hold
the value. Each of the two conditions has an error of its own. -/
theorem readInteger_text (w : Written) :
    (w.magnitude < 2 ^ 127 → (∀ kind ∈ w.suffix, kind.Holds w.value) →
      readInteger w.text = .ok ⟨w.value, w.suffix⟩) ∧
    (w.magnitude < 2 ^ 127 → ∀ kind ∈ w.suffix, ¬kind.Holds w.value →
      readInteger w.text = .error (.literalOutOfRange w.text kind.name)) ∧
    (2 ^ 127 ≤ w.magnitude → readInteger w.text = .error (.invalidLiteral w.text)) := by
  have hparts : integerParts? w.text.toList
      = if FitsWord (w.bareValue none) then some ⟨w.valueWith none, w.suffix⟩ else none := by
    rw [Written.text, String.toList_ofList, w.integerParts?_charsWith w.leadsWith_none]
  rw [← w.fitsWord_bareValue_none_iff]
  refine ⟨fun hfits hholds => ?_, fun hfits kind hkind hholds => ?_, fun hbig => ?_⟩
  · rw [if_pos hfits, w.valueWith_none hfits] at hparts
    exact readInteger_eq_ok_iff.2 ⟨hparts, hholds⟩
  · rw [if_pos hfits, w.valueWith_none hfits, Option.mem_def.1 hkind] at hparts
    rw [← Primitive.fits_iff_holds] at hholds
    simp [readInteger, hparts, hholds]
  · rw [if_neg (by rw [w.fitsWord_bareValue_none_iff]; omega)] at hparts
    simp [readInteger, hparts]

/-- `0X8`, an underscore and some zeros, perhaps under a minus or with the suffix `i8`. -/
def eight (isNegative : Bool) (zeros : Nat) (isSuffixed : Bool) : Written where
  isNegative
  radix := .hexadecimal true
  glyphs := .digit (8 : Fin 16) true :: .underscore :: List.replicate zeros (.digit (0 : Fin 16) false)
  suffix := if isSuffixed then some .i8 else none
  hasDigit := by simp [Glyph.digits, Glyph.value?]
  isInteger := by cases isSuffixed <;> decide

theorem eight_read :
    (Primitive.i8.Holds (-128) ∧ readInteger "-0X8_0i8" = .ok ⟨-128, some .i8⟩) ∧
    (¬Primitive.i8.Holds 128 ∧ readInteger "0X8_0i8" = .error (.literalOutOfRange "0X8_0i8" "i8")) ∧
    ((eight true 31 false).magnitude = 2 ^ 127 ∧ readInteger "-0X8_0000000000000000000000000000000"
      = .error (.invalidLiteral "-0X8_0000000000000000000000000000000")) := by
  have hleast : Primitive.i8.Holds (-128) := Primitive.fits_iff_holds.1 (by decide)
  have habove : ¬Primitive.i8.Holds 128 := mt Primitive.fits_iff_holds.2 (by decide)
  have hbound : (eight true 31 false).magnitude = 2 ^ 127 := by decide +kernel
  refine ⟨⟨hleast, ?_⟩, ⟨habove, ?_⟩, hbound, ?_⟩
  · exact (readInteger_text (eight true 1 true)).1 (by decide +kernel) (by rintro kind ⟨⟩; exact hleast)
  · exact (readInteger_text (eight false 1 true)).2.1 (by decide +kernel) .i8 rfl habove
  · exact (readInteger_text (eight true 31 false)).2.2 hbound.ge

/-! ## Nothing else is read, but for stray signs -/

/-- A text is that of a literal with a second sign in it, if there is one, and no other sign of it is stray. -/
structure Written.Spells (w : Written) (stray : Option StraySign) (text : String) : Prop where
  text_eq : text = String.ofList (w.charsWith stray)
  hasStraySign_eq : hasStraySign text.toList = stray.isSome

theorem Written.LeadsWith.spells {text : String} {w : Written} {stray : Option StraySign} (h : w.LeadsWith stray)
    (htext : text.toList = w.charsWith stray) : w.Spells stray text :=
  ⟨by rw [← htext, String.ofList_toList], by rw [htext, w.hasStraySign_charsWith h]⟩

theorem exists_written_of_readInteger {text : String} {literal : Integer} (h : readInteger text = .ok literal) :
    ∃ (w : Written) (stray : Option StraySign), w.Spells stray text ∧
      FitsWord (w.bareValue stray) ∧ literal = ⟨w.valueWith stray, w.suffix⟩ := by
  have hparts := (readInteger_eq_ok_iff.1 h).1
  rw [integerParts?_eq] at hparts
  obtain ⟨bare, hbare, -⟩ := Option.map_eq_some_iff.1 hparts
  obtain ⟨w, stray, hchars, hleads, rfl, hfits⟩ := exists_written_of_bareValue? hbare
  refine ⟨w, stray, hleads.spells hchars, hfits, ?_⟩
  rw [← integerParts?_eq, hchars, w.integerParts?_charsWith hleads, if_pos hfits] at hparts
  exact (Option.some.inj hparts).symm

/-- The numbers that are negated: the one before the minus of the text itself, and the one that is read when the
literal stands under a minus. -/
def IsNegated (text : String) (value : Int) : Prop :=
  (∃ suffix, bareValue? text.toList = some ⟨value, suffix⟩) ∨ ∃ suffix, readInteger text = .ok ⟨value, suffix⟩

theorem exists_written_of_isNegated {text : String} {value : Int} (h : IsNegated text value) :
    ∃ (w : Written) (stray : Option StraySign), w.Spells stray text ∧
      FitsWord (w.bareValue stray) ∧ (value = w.bareValue stray ∨ value = w.valueWith stray) := by
  rcases h with ⟨suffix, hbare⟩ | ⟨suffix, hread⟩
  · obtain ⟨w, stray, hchars, hleads, heq, hfits⟩ := exists_written_of_bareValue? hbare
    obtain ⟨rfl, -⟩ := Integer.mk.inj heq
    exact ⟨w, stray, hleads.spells hchars, hfits, .inl rfl⟩
  · obtain ⟨w, stray, htext, hfits, heq⟩ := exists_written_of_readInteger hread
    exact ⟨w, stray, htext, hfits, .inr (Integer.mk.inj heq).1⟩

/-- Only the least word has a negation that is not `FitsWord`, and only a stray minus in front of `magnitude = 2 ^ 127`
makes it. -/
theorem Written.magnitude_of_not_fitsWord {w : Written} {stray : Option StraySign} {value : Int}
    (hfits : FitsWord (w.bareValue stray)) (hvalue : value = w.bareValue stray ∨ value = w.valueWith stray)
    (h : ¬FitsWord (-value)) : stray.map StraySign.isNegative = some true ∧ w.magnitude = 2 ^ 127 := by
  -- what was negated within the word is negated back
  have hbare : ¬FitsWord (-w.bareValue stray) := by
    intro hneg
    rcases hvalue with rfl | rfl
    · exact h hneg
    · rw [valueWith, negate128_eq hneg] at h
      split_ifs at h
      · exact h (by rwa [neg_neg])
      · exact h hneg
  unfold bareValue at hfits hbare
  rcases hsign : stray.map StraySign.isNegative with _ | _ | _ <;>
    simp only [hsign, signed, FitsWord] at hfits hbare
  · omega
  · omega
  · exact ⟨rfl, by omega⟩

/-- A text without a stray sign is read only if it is a literal of the grammar, as its value, and no negation leaves
the word. A text with a stray sign is read if it is a literal with that sign before its digits, and a negation leaves
the word only if the sign is a minus before digits that denote `2 ^ 127`. -/
theorem readInteger_accepts (text : String) :
    (hasStraySign text.toList = false →
      (∀ literal, readInteger text = .ok literal →
        ∃ w : Written, text = w.text ∧ literal = ⟨w.value, w.suffix⟩) ∧
      ∀ value, IsNegated text value → FitsWord (-value)) ∧
    (hasStraySign text.toList = true →
      (∀ literal, readInteger text = .ok literal ↔
        ∃ (w : Written) (stray : StraySign), text = w.textWith stray ∧ FitsWord (w.bareValue stray) ∧
          (∀ kind ∈ w.suffix, kind.Holds (w.valueWith stray)) ∧ literal = ⟨w.valueWith stray, w.suffix⟩) ∧
      ∀ value, IsNegated text value → ¬FitsWord (-value) →
        ∃ (w : Written) (stray : StraySign), text = w.textWith stray ∧ stray.isNegative = true ∧
          w.magnitude = 2 ^ 127) := by
  refine ⟨fun hclean => ⟨fun literal hread => ?_, fun value hnegated => ?_⟩,
    fun hsigned => ⟨fun literal => ⟨fun hread => ?_, ?_⟩, fun value hnegated hword => ?_⟩⟩
  · obtain ⟨w, _ | stray, ⟨htext, hstray⟩, hfits, rfl⟩ := exists_written_of_readInteger hread
    · exact ⟨w, htext, by rw [w.valueWith_none hfits]⟩
    · simp [hclean] at hstray
  · obtain ⟨w, _ | stray, ⟨-, hstray⟩, hfits, hvalue⟩ := exists_written_of_isNegated hnegated
    · by_contra hword
      simpa using (Written.magnitude_of_not_fitsWord hfits hvalue hword).1
    · simp [hclean] at hstray
  · obtain ⟨w, _ | stray, ⟨htext, hstray⟩, hfits, rfl⟩ := exists_written_of_readInteger hread
    · simp [hsigned] at hstray
    · exact ⟨w, stray, htext, hfits, (readInteger_eq_ok_iff.1 hread).2, rfl⟩
  · rintro ⟨w, stray, rfl, hfits, hholds, rfl⟩
    rw [Written.textWith, String.toList_ofList] at hsigned
    refine readInteger_eq_ok_iff.2 ⟨?_, hholds⟩
    rw [Written.textWith, String.toList_ofList,
      w.integerParts?_charsWith (w.leadsWith_of_hasStraySign hsigned), if_pos hfits]
  · obtain ⟨w, _ | stray, ⟨htext, hstray⟩, hfits, hvalue⟩ := exists_written_of_isNegated hnegated
    · simp [hsigned] at hstray
    · obtain ⟨hminus, hmagnitude⟩ := Written.magnitude_of_not_fitsWord hfits hvalue hword
      exact ⟨w, stray, htext, by simpa using hminus, hmagnitude⟩

theorem doubleMinus_accepted :
    readInteger "--5" = .ok ⟨5, none⟩ ∧ (∀ w : Written, w.text ≠ "--5") ∧
      IsNegated "--170141183460469231731687303715884105728" (-2 ^ 127) ∧ ¬FitsWord (- -2 ^ 127) := by
  refine ⟨by decide +kernel, fun w hw => ?_, .inl ⟨none, by decide +kernel⟩, by decide⟩
  have hstray := w.hasStraySign_charsWith w.leadsWith_none
  rw [← String.toList_ofList (l := w.charsWith none), ← Written.text, hw] at hstray
  exact absurd hstray (by decide +kernel)

theorem plainHexadecimal_accepted :
    (hasStraySign "-0xfFi16".toList = false ∧
      (∃ w : Written, "-0xfFi16" = w.text ∧ (⟨-255, some .i16⟩ : Integer) = ⟨w.value, w.suffix⟩) ∧
      FitsWord (-255)) ∧
    (hasStraySign "--170141183460469231731687303715884105728".toList = true ∧
      (∃ (w : Written) (stray : StraySign), "--170141183460469231731687303715884105728" = w.textWith stray ∧
        FitsWord (w.bareValue stray) ∧ (∀ kind ∈ w.suffix, kind.Holds (w.valueWith stray)) ∧
        (⟨-2 ^ 127, none⟩ : Integer) = ⟨w.valueWith stray, w.suffix⟩) ∧
      ∃ (w : Written) (stray : StraySign), "--170141183460469231731687303715884105728" = w.textWith stray ∧
        stray.isNegative = true ∧ w.magnitude = 2 ^ 127) := by
  have hclean : hasStraySign "-0xfFi16".toList = false := by decide +kernel
  have hsigned : hasStraySign "--170141183460469231731687303715884105728".toList = true := by decide +kernel
  obtain ⟨hplain, hnegated⟩ := (readInteger_accepts "-0xfFi16").1 hclean
  obtain ⟨hdouble, hleast⟩ := (readInteger_accepts "--170141183460469231731687303715884105728").2 hsigned
  exact ⟨⟨hclean, hplain _ (by decide +kernel), hnegated 255 (.inl ⟨some .i16, by decide +kernel⟩)⟩,
    hsigned, (hdouble _).1 (by decide +kernel), hleast (-2 ^ 127) (.inl ⟨none, by decide +kernel⟩) (by decide)⟩

end Ascribe.Literal
