import Mathlib.Data.Finset.Prod
import Ascribe.Proofs.Assignability.Totality

/-!
# Comparisons that come to an end

A comparison goes from types to their parts, from named types to what they stand for, and from interfaces to the
methods they inherit. Going to parts makes types smaller. Going on from a named type is done once for each pair of
texts, since the pair is assumed from then on. Only the inherited methods are neither: the parts of an inherited method
are not parts of the interface that inherits it.

So a comparison ends among types that are closed under these steps if their texts are finitely many and if they can be
ranked, where a part ranks below its type, and an interface no lower than the interfaces it is declared below
(`Resolver.Confines`). An interface that is a part of an interface it is declared below has no rank.

## Key results

- `compareWithin_total`: a comparison among ranked types with finitely many texts comes to a verdict, at a depth given
  by the number of texts and the highest rank
-/

namespace Ascribe

variable {σ : Type} {I : σ → Prop}

/-- A resolver that does not lead out of the types that `W` allows. A part of such a type ranks below it, and an
interface that such an interface is declared below ranks no higher than it. -/
structure Resolver.Confines (I : σ → Prop) (W : Ty → Prop) (rank : Ty → Nat) (resolve : Resolver σ) : Prop where
  part : ∀ {t}, W t → ∀ part ∈ t.shape.parts, W part ∧ rank part < rank t
  named : ∀ {t r}, t.shape = .ref r → W t → (resolve r).TotalUnder I W
  super : ∀ {t body}, t.shape = .interface body → W t → ∀ u ∈ body.supers,
    (resolve.target u).ReturnsUnder I fun v => ∀ body', v.shape = .interface body' → rank v ≤ rank t

namespace Resolver.Confines

variable {resolve : Resolver σ} {W : Ty → Prop} {rank : Ty → Nat} (h : resolve.Confines I W rank)

include h

theorem super_mem {t : Ty} {body : InterfaceBody Ty} (hbody : t.shape = .interface body) (ht : W t) :
    ∀ u ∈ body.supers, W u := by
  intro u hu
  apply (h.part ht u _).1
  rw [hbody]
  exact List.mem_append_right _ hu

theorem method_part {t : Ty} {body : InterfaceBody Ty} (hbody : t.shape = .interface body) (ht : W t) :
    ∀ m ∈ body.methods, ∀ part ∈ m.signature.parts, W part ∧ rank part < rank t := by
  intro m hm part hpart
  apply h.part ht
  rw [hbody]
  exact List.mem_append_left _ (List.mem_flatMap.mpr ⟨m, hm, hpart⟩)

theorem totalOn : resolve.TotalOn I W fun m => ∀ part ∈ m.signature.parts, W part :=
  ⟨h.named, fun hbody ht m hm part hpart => (h.method_part hbody ht m hm part hpart).1, h.super_mem⟩

/-- `interfaceMethods` finds methods that are made of types which rank below the interface, as its own are. -/
theorem interfaceMethods_total {t : Ty} {body : InterfaceBody Ty} (hbody : t.shape = .interface body) (ht : W t) :
    (resolve.interfaceMethods body).TotalUnder I fun found =>
      ∀ m ∈ found, ∀ part ∈ m.signature.parts, W part ∧ rank part < rank t := by
  -- a super-interface is met below an interface that ranks no higher, so it leads to one that ranks no higher
  have hwalks : resolve.Walks True I
      (fun u => ∃ v body', W v ∧ rank v ≤ rank t ∧ v.shape = .interface body' ∧ u ∈ body'.supers)
      (fun v => W v ∧ ∀ body', v.shape = .interface body' → rank v ≤ rank t)
      fun m => ∀ part ∈ m.signature.parts, W part ∧ rank part < rank t := by
    constructor
    · rintro u ⟨v, body', hv, hrank, hbody', hu⟩
      have htotal := target_total h.totalOn (h.super_mem hbody' hv u hu)
      apply Search.ensures_true_iff.mpr
      apply (htotal.andUnder (h.super hbody' hv u hu)).mono
      intro w hw
      exact ⟨hw.1, fun body'' hbody'' => (hw.2 body'' hbody'').trans hrank⟩
    · intro v body' hbody' hv m hm part hpart
      obtain ⟨hW, hlt⟩ := h.method_part hbody' hv.1 m hm part hpart
      exact ⟨hW, hlt.trans_le (hv.2 body' hbody')⟩
    · intro v body' hbody' hv u hu
      exact ⟨v, body', hv.1, hv.2 body' hbody', hbody', hu⟩
  apply Resolver.interfaceMethods_total hwalks (h.method_part hbody ht)
  intro u hu
  exact ⟨t, body, ht, Nat.le_refl _, hbody, hu⟩

end Resolver.Confines

/-! ## How deep a comparison goes -/

/-- The pairs of some texts that are not assumed. -/
def pairsLeft (texts : Finset String) (assumed : Assumptions) : Finset (String × String) :=
  texts ×ˢ texts \ assumed.toFinset

theorem card_pairsLeft_cons {texts : Finset String} {assumed : Assumptions} {x y : String} (hx : x ∈ texts)
    (hy : y ∈ texts) (hnew : (x, y) ∉ assumed) :
    (pairsLeft texts ((x, y) :: assumed)).card < (pairsLeft texts assumed).card := by
  apply Finset.card_lt_card
  have hleft : (x, y) ∈ pairsLeft texts assumed := by simp [pairsLeft, hx, hy, hnew]
  have hcons : pairsLeft texts ((x, y) :: assumed) = (pairsLeft texts assumed).erase (x, y) := by
    ext pair
    simp only [pairsLeft, List.toFinset_cons, Finset.mem_sdiff, Finset.mem_insert, Finset.mem_erase, not_or]
    tauto
  rw [hcons]
  exact Finset.erase_ssubset hleft

/-- A depth that is enough for a comparison among types of so many texts and of ranks up to a highest one. -/
def comparisonDepth (texts top : Nat) : Nat :=
  (texts * texts + 1) * (2 * top + 1)

section Depth

variable {resolve : Resolver σ} {W : Ty → Prop} {rank : Ty → Nat} {texts : Finset String} {top : Nat}
  (h : resolve.Confines I W rank) (htexts : ∀ t, W t → t.text ∈ texts) (htop : ∀ t, W t → rank t ≤ top)

include h htexts htop

/-- `compareWithin` comes to a verdict if `pairsLeft` allow one descent through the ranks each. -/
theorem compareWithin_total_of_left {depth : Nat} {assumed : Assumptions} {a e : Ty} (ha : W a) (he : W e)
    (hdepth : (pairsLeft texts assumed).card * (2 * top + 1) + rank a + rank e < depth) :
    (compareWithin resolve depth assumed a e).TotalUnder I fun _ => True := by
  induction depth generalizing assumed a e with
  | zero => omega
  | succ depth ih =>
    have hask {assumed : Assumptions} {x y : Ty} (hx : W x) (hy : W y)
        (hdepth : (pairsLeft texts assumed).card * (2 * top + 1) + rank x + rank y < depth) :
        (compareWithin resolve depth assumed x y).Ensures True I fun _ => True :=
      Search.ensures_true_iff.mpr (ih hx hy hdepth)
    have hanswers : Comparer.Answers True I ⟨resolve, compareWithin resolve depth⟩ assumed a e
        (fun x => W x ∧ rank x < rank a) (fun y => W y ∧ rank y < rank e) :=
      { left := fun hx => hask hx.1 he (by omega)
        right := fun hy => hask ha hy.1 (by omega)
        both := fun hx hy => hask hx.1 hy.1 (by omega)
        flipped := fun hx hy => hask hy.1 hx.1 (by omega)
        actualParts := h.part ha
        expectedParts := h.part he
        actualMethods := fun hbody => Search.ensures_true_iff.mpr (h.interfaceMethods_total hbody ha)
        expectedMethods := fun hbody => Search.ensures_true_iff.mpr (h.interfaceMethods_total hbody he) }
    apply Search.ensures_true_iff.mp
    apply Comparer.step_ensures hanswers
    intro _
    apply Comparer.named_ensures (c := ⟨resolve, compareWithin resolve depth⟩) (W := W) _ _ ha he
    · intro t r hr ht
      exact Search.ensures_true_iff.mpr (h.totalOn.resolve hr ht)
    · intro hnew x y hx hy
      -- the ranks may rise again, but one pair fewer is left
      apply hask hx hy
      have hleft := card_pairsLeft_cons (htexts a ha) (htexts e he) hnew
      have hrank : rank x + rank y ≤ 2 * top := by
        have := htop x hx
        have := htop y hy
        omega
      have hround := Nat.mul_le_mul_right (2 * top + 1) (Nat.succ_le_of_lt hleft)
      rw [Nat.succ_mul] at hround
      omega

/-- `compareWithin` comes to a verdict at `comparisonDepth`, among ranked types with finitely many texts. -/
theorem compareWithin_total {depth : Nat} (hdepth : comparisonDepth texts.card top ≤ depth) (assumed : Assumptions)
    {a e : Ty} (ha : W a) (he : W e) : (compareWithin resolve depth assumed a e).TotalUnder I fun _ => True := by
  apply compareWithin_total_of_left h htexts htop ha he
  have hpairs : (pairsLeft texts assumed).card ≤ texts.card * texts.card := by
    rw [← Finset.card_product]
    exact Finset.card_le_card Finset.sdiff_subset
  have hround := Nat.mul_le_mul_right (2 * top + 1) hpairs
  have ha := htop a ha
  have he := htop e he
  unfold comparisonDepth at hdepth
  rw [Nat.succ_mul] at hdepth
  omega

end Depth

end Ascribe
