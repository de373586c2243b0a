import Ascribe.Proofs.Checker.Invalidation
import Ascribe.Proofs.Literal.Reading

/-!
# Integer literals and the types that hold them

An integer literal without a suffix is given the number type that its place asks for, if that is a float or holds the
value of the literal. Otherwise it is given the first type that does of the integer type in the settings, `i64` and
`u64`. The value is the negated one if the literal stands under a minus.

Together `i64` and `u64` hold every value that some integer type holds. So a literal is given an integer type that does
not hold its value only if none does. Such a literal is still given `u64`, and no error.

## Key results

- `Primitive.defaultInteger_suits`: what is chosen where the place does not ask for a type that holds the value
- `Typing.intType_suits`: what the rule for integer literals gives
- `ReachedBy.typeOf_int_suits`: what a host is told about a literal, at any time of a session
-/

namespace Ascribe

/-! ## Values that some type holds -/

namespace Primitive

variable {kind : Primitive} {value : Int}

theorem Holds.bounds (h : kind.Holds value) : -2 ^ 63 ≤ value ∧ value < 2 ^ 64 := by
  rw [← fits_iff_holds] at h
  cases kind <;> simp [fits, range?] at h <;> omega

/-- `i64` or `u64` `Holds` every value that some type holds. -/
theorem Holds.widest (h : kind.Holds value) : Holds .i64 value ∨ Holds .u64 value := by
  obtain ⟨hleast, hgreatest⟩ := h.bounds
  simp only [← fits_iff_holds, fits, range?, Bool.and_eq_true, decide_eq_true_eq]
  omega

/-- A kind for an integer literal: a float, a type that holds the value, or `u64` if there is no such type. -/
def Suits (kind : Primitive) (value : Int) : Prop :=
  kind.isFloat = true ∨ kind.Holds value ∨ kind = .u64 ∧ ∀ other : Primitive, ¬ other.Holds value

theorem suits_congr {other : Int} (h : ∀ kind : Primitive, kind.Holds value ↔ kind.Holds other) :
    kind.Suits value ↔ kind.Suits other := by
  simp only [Suits, h]

theorem defaultInteger_suits (value : Int) (preferred : Primitive) : (defaultInteger value preferred).Suits value := by
  unfold defaultInteger
  cases hfind : [preferred, .i64, .u64].find? (·.fits value) with
  | some kind =>
    have hfits : kind.fits value = true := List.find?_some (p := fun k : Primitive => k.fits value) hfind
    exact .inr (.inl (fits_iff_holds.mp hfits))
  | none =>
    -- a value that some type holds would have been found to fit one of the two widest
    refine .inr (.inr ⟨rfl, fun other hother => ?_⟩)
    have hnone := List.find?_eq_none.mp hfind
    rcases hother.widest with h | h
    · exact hnone .i64 (by simp) (fits_iff_holds.mpr h)
    · exact hnone .u64 (by simp) (fits_iff_holds.mpr h)

/-- A kind that the place asks for is taken only if it `Suits` the value. -/
theorem asked_suits (asked : Primitive) (value : Int) (preferred : Primitive) :
    (if asked.isFloat || asked.fits value then asked else defaultInteger value preferred).Suits value := by
  split
  · next h =>
    rcases Bool.or_eq_true_iff.mp h with hfloat | hfits
    · exact .inl hfloat
    · exact .inr (.inl (fits_iff_holds.mp hfits))
  · exact defaultInteger_suits value preferred

end Primitive

/-! ## Negated values -/

namespace Literal

theorem fitsWord_negate128 (value : Int) : FitsWord (negate128 value) := by
  have hleast := Int.le_bmod (x := -value) (m := 2 * wordBound) (by decide)
  have hgreatest := Int.bmod_lt (x := -value) (m := 2 * wordBound) (by decide)
  have hbound : ((2 * wordBound : Nat) : Int) = 2 ^ 128 := by norm_num [wordBound]
  unfold FitsWord negate128
  omega

/-- What `readInteger` reads is `FitsWord`, since the negation of a word is. -/
theorem fitsWord_of_readInteger {text : String} {literal : Integer} (h : readInteger text = .ok literal) :
    FitsWord literal.value := by
  obtain ⟨w, stray, -, hfits, rfl⟩ := exists_written_of_readInteger h
  unfold Written.valueWith
  split
  · exact fitsWord_negate128 _
  · exact hfits

/-- `Holds` does not tell `negate128` from negation: the least word is its own negation, but no type holds it, nor the
number that it should be. -/
theorem holds_negate128_iff {value : Int} (h : FitsWord value) {kind : Primitive} :
    kind.Holds (negate128 value) ↔ kind.Holds (-value) := by
  by_cases hneg : FitsWord (-value)
  · rw [negate128_eq hneg]
  · obtain rfl : value = -2 ^ 127 := by
      unfold FitsWord at h hneg
      omega
    have hleast : negate128 (-2 ^ 127) = -2 ^ 127 := by decide
    rw [hleast]
    refine iff_of_false (fun hholds => ?_) (fun hholds => ?_)
    all_goals
      have hbounds := hholds.bounds
      omega

end Literal

/-- The value that a literal of some value stands for: the negated one under a minus. -/
def Tree.literalValue (p : Tree) (node : NodeId) (value : Int) : Int :=
  if p.isNegated node then -value else value

/-! ## The rule for integer literals -/

variable {p : Tree} {node : NodeId} {text : String} {value : Int}

theorem Typing.intType_suits {q : Queries} (hread : Literal.readInteger text = .ok ⟨value, none⟩) :
    (intType p q node text).Returns fun t =>
      ∃ kind, t.primitive? = some kind ∧ kind.Suits (p.literalValue node value) := by
  -- the word that is held against the types stands for the value
  have hsuits : ∀ kind : Primitive,
      kind.Suits (if p.isNegated node then Literal.negate128 value else value) →
        ∃ kind', (Ty.prim kind).primitive? = some kind' ∧ kind'.Suits (p.literalValue node value) := by
    refine fun kind hkind => ⟨kind, rfl, (Primitive.suits_congr fun other => ?_).mp hkind⟩
    unfold Tree.literalValue
    split
    · exact Literal.holds_negate128_iff (Literal.fitsWord_of_readInteger hread)
    · rfl
  unfold intType
  simp only [hread]
  refine .after fun settings => .after fun asked => ?_
  cases asked with
  | some kind => exact .pure (hsuits _ (kind.asked_suits _ _))
  | none => exact .pure (hsuits _ (Primitive.defaultInteger_suits _ _))

/-! ## What a host is told -/

theorem Ty.primitive?_orOrigin (t : Ty) (node : NodeId) : (t.orOrigin node).primitive? = t.primitive? := by
  unfold Ty.orOrigin
  split <;> rfl

/-- What holds of the types that `Typing.ruleFor` gives for the nodes of a tree holds of the type that `typeOf` tells a
host. -/
theorem ReachedBy.typeOf_told {K : NodeId → Ty → Prop} {c c' : Checker} {t : Ty}
    (hrule : ∀ (q : Queries) (node : NodeId) (form : Form) (c : Checker) (t : Ty) (c' : Checker),
      p.form? node = some form → (Typing.ruleFor p q node form).run c = .ok (t, c') → K node (t.orOrigin node))
    (h : ReachedBy (Operation.On p) c) (hrun : (Checker.typeOf p node).run c = .ok (t, c')) : K node t := by
  have hask : ((Query.typeOf node).ask p).run c = .ok ((), c') := by
    show (discard (Checker.typeOf p node)).run c = _
    rw [Search.run_discard, hrun]
    rfl
  have hentries : c'.Entries fun node entry => ∀ t, entry = .done t → K node t := by
    refine (h.step (.ask p (.typeOf node)) rfl hask).entries (fun _ _ _ _ hentry => nomatch hentry) ?_
    intro q node form c t c' hform hfound told htold
    obtain rfl := MemoEntry.done.inj htold
    exact hrule q node form c t c' hform hfound
  exact hentries node _ (Checker.typeOf_kept h.reached.idle hrun) t rfl

/-- What a host is told about an integer literal without a suffix, at any time of a session about its tree and whatever
its place asks for: it has a float type or an integer type that holds its value, unless no integer type does. In that
case it has a float type or `u64`. -/
theorem ReachedBy.typeOf_int_suits {c c' : Checker} {t : Ty} (h : ReachedBy (Operation.On p) c)
    (hform : p.form? node = some (.int text)) (hread : Literal.readInteger text = .ok ⟨value, none⟩)
    (hrun : (Checker.typeOf p node).run c = .ok (t, c')) :
    ∃ kind, t.primitive? = some kind ∧ kind.Suits (p.literalValue node value) := by
  refine h.typeOf_told (K := fun other u => p.form? other = some (.int text) →
    ∃ kind, u.primitive? = some kind ∧ kind.Suits (p.literalValue other value)) ?_ hrun hform
  intro q other form c u c' hother hrule hint
  obtain rfl := Option.some.inj (hint.symm.trans hother)
  rw [Ty.primitive?_orOrigin]
  exact Typing.intType_suits hread c u c' hrule

/-- The literal of `let x: i8 = -128`. -/
def leastByte : Tree where
  nodes := #[
    { form := .varDecl { name := "x", type := some 1, init := some 2 } },
    { form := .primitive .i8, parent := some 0 },
    { form := .unary .neg 3, parent := some 0 },
    { form := .int "128", parent := some 2 }]

/-- A literal is given `i8` for its value under the minus, although `i8` does not hold the number that is written. -/
theorem leastByte_suits :
    ∃ t c', ReachedBy (Operation.On leastByte) {} ∧ leastByte.form? 3 = some (.int "128") ∧
      Literal.readInteger "128" = .ok ⟨128, none⟩ ∧ leastByte.literalValue 3 128 = -128 ∧
      (Checker.typeOf leastByte 3).run {} = .ok (t, c') ∧ t.primitive? = some .i8 ∧
      ∃ kind, t.primitive? = some kind ∧ kind.Suits (leastByte.literalValue 3 128) := by
  obtain ⟨t, c', hrun, ht⟩ := Search.exists_run_of_any (x := Checker.typeOf leastByte 3) (s := {})
    (P := fun t => t.primitive? == some .i8) (by decide +kernel)
  have hread : Literal.readInteger "128" = .ok ⟨128, none⟩ := by decide +kernel
  exact ⟨t, c', .new {}, rfl, hread, by decide, hrun, by simpa using ht,
    ReachedBy.typeOf_int_suits (.new {}) rfl hread hrun⟩

/-- The literal of `let x = 18446744073709551616`. -/
def pastWords : Tree where
  nodes := #[
    { form := .varDecl { name := "x", init := some 1 } },
    { form := .int "18446744073709551616", parent := some 0 }]

/-- A literal that no integer type holds is given `u64`, and nothing is reported. -/
theorem pastWords_unheld :
    ∃ t c', (Checker.typeOf pastWords 1).run {} = .ok (t, c') ∧ t.primitive? = some .u64 ∧
      Literal.readInteger "18446744073709551616" = .ok ⟨2 ^ 64, none⟩ ∧ pastWords.literalValue 1 (2 ^ 64) = 2 ^ 64 ∧
      ¬ Primitive.u64.Holds (2 ^ 64) := by
  obtain ⟨t, c', hrun, ht⟩ := Search.exists_run_of_any (x := Checker.typeOf pastWords 1) (s := {})
    (P := fun t => t.primitive? == some .u64) (by decide +kernel)
  refine ⟨t, c', hrun, by simpa using ht, by decide +kernel, by decide, ?_⟩
  rw [← Primitive.fits_iff_holds]
  decide

end Ascribe
