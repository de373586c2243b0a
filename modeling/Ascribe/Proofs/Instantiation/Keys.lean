import Ascribe.Checker.State
import Ascribe.Proofs.Ty.Readable

/-!
# Keys are injective

The key of an instantiation and the key of a named type are texts, but on ordinary arguments they identify
what they are keys of: two keys are equal only if the names, or the declarations, are equal and the arguments
are, up to back-references.
-/

namespace Ascribe

/-- `==` on lists of types is equality of their images under `erase`. -/
theorem Ty.beq_iff_map_erase_eq (xs ys : List Ty) :
    (xs == ys) = true ↔ xs.map erase = ys.map erase := by
  induction xs generalizing ys with
  | nil => cases ys <;> simp
  | cons x xs ih =>
    cases ys with
    | nil => simp
    | cons y ys => simp [ih, same_iff_erase_eq]

namespace Instantiation

theorem toList_keyOf (name : String) (args : List Ty) :
    (keyOf name args).toList = name.toList ++ Ty.argumentChars args := by
  rw [keyOf, Ty.argumentChars]
  split
  · exact (List.append_nil _).symm
  · rw [String.toList_append, String.toList_append, String.toList_append, Ty.toList_intercalate]
    simp

variable {declOf : String → NodeId} {xs ys : List Ty}

/-- `Ty.listing` tells lists of ordinary types apart, up to `Ty.erase`. -/
theorem map_erase_eq_of_listing_eq (hxs : ∀ t ∈ xs, t.isOrdinary declOf = true)
    (hys : ∀ t ∈ ys, t.isOrdinary declOf = true) (h : Ty.listing xs = Ty.listing ys) :
    xs.map Ty.erase = ys.map Ty.erase := by
  -- a closing bracket after both lists shows where they end
  have hclosed : Ty.listing xs ++ '>' :: [] = Ty.listing ys ++ '>' :: [] := by rw [h]
  exact (Ty.listing_append_inj (.inr rfl) hxs (fun t ht => Ty.readable (hxs t ht)) hys hclosed).1

/-- `keyOf` tells instantiations apart by their names and by their arguments, up to `Ty.erase`. -/
theorem map_erase_eq_of_keyOf_eq (hxs : ∀ t ∈ xs, t.isOrdinary declOf = true)
    (hys : ∀ t ∈ ys, t.isOrdinary declOf = true) {f g : String} (hf : '<' ∉ f.toList)
    (hg : '<' ∉ g.toList) (h : keyOf f xs = keyOf g ys) :
    f = g ∧ xs.map Ty.erase = ys.map Ty.erase := by
  have bracket (args : List Ty) : ∀ c ∈ (Ty.argumentChars args).head?, (c != '<') = false := by
    intro c hc
    cases args with
    | nil => cases hc
    | cons t ts =>
      obtain rfl : '<' = c := Option.some.inj hc
      rfl
  have name {f : String} (hf : '<' ∉ f.toList) : ∀ c ∈ f.toList, (c != '<') = true := by
    intro c hc
    rw [bne_iff_ne]
    rintro rfl
    exact hf hc
  have hchars := congrArg String.toList h
  rw [toList_keyOf, toList_keyOf] at hchars
  -- the name ends at the first angle bracket
  obtain ⟨hname, hargs⟩ := append_inj_of_head (name hf) (name hg) (bracket xs) (bracket ys) hchars
  have hclosed : Ty.argumentChars xs ++ [] = Ty.argumentChars ys ++ [] := by rw [hargs]
  obtain ⟨hmap, -⟩ := Ty.argumentChars_append_inj hxs (fun t ht => Ty.readable (hxs t ht)) hys
    (by simp) (by simp) hclosed
  exact ⟨String.toList_inj.mp hname, hmap⟩

/-- `keyOf` gives equal keys for ordinary arguments only if names and arguments are equal, and so does `Reference.key`
for declarations and arguments. -/
theorem keys_injective (declOf : String → NodeId) (xs ys : List Ty)
    (hxs : ∀ t ∈ xs, t.isOrdinary declOf = true) (hys : ∀ t ∈ ys, t.isOrdinary declOf = true) :
    (∀ f g : String, '<' ∉ f.toList → '<' ∉ g.toList → keyOf f xs = keyOf g ys →
      f = g ∧ (xs == ys) = true) ∧
    (∀ r s : Reference Ty, r.args = xs → s.args = ys → r.key = s.key →
      r.decl = s.decl ∧ (xs == ys) = true) := by
  constructor
  · intro f g hf hg h
    obtain ⟨hname, hmap⟩ := map_erase_eq_of_keyOf_eq hxs hys hf hg h
    exact ⟨hname, (Ty.beq_iff_map_erase_eq xs ys).mpr hmap⟩
  · rintro r s rfl rfl h
    simp only [Reference.key, Prod.mk.injEq] at h
    have hlisting := congrArg String.toList h.2
    rw [Ty.toList_intercalate, Ty.toList_intercalate] at hlisting
    exact ⟨h.1, (Ty.beq_iff_map_erase_eq _ _).mpr (map_erase_eq_of_listing_eq hxs hys hlisting)⟩

/-- A boxed array of pairs, with and without a nullable box. -/
def boxedPairs (origin : Option NodeId) : List Ty :=
  let pair := Ty.tuple [Ty.array (Ty.prim .u8), (Ty.reference 3 "Item" []).nullable]
  [(Ty.reference 7 "Box" [⟨.array pair, origin⟩]).nullable, Ty.tuple [], Ty.reference 7 "Box" [pair.array]]

/-- The declarations that the names of the boxed pairs stand for. -/
def boxedDecl (name : String) : NodeId :=
  if name = "Box" then 7 else 3

theorem boxedPairs_keys :
    keyOf "Map" (boxedPairs none) = "Map<Box<(u8[], Item?)[]>?, (), Box<(u8[], Item?)[]>>" ∧
    (boxedPairs none == boxedPairs (some 5)) = true ∧
    ((⟨1, "M", boxedPairs none⟩ : Reference Ty).decl = 1 ∧ (boxedPairs none == boxedPairs (some 5)) = true) := by
  have hkeys := keys_injective boxedDecl (boxedPairs none) (boxedPairs (some 5)) (by decide) (by decide)
  refine ⟨by decide, (hkeys.1 "Map" "Map" (by decide) (by decide) (by decide)).2, ?_⟩
  exact hkeys.2 ⟨1, "M", boxedPairs none⟩ ⟨1, "N", boxedPairs (some 5)⟩ rfl rfl (by decide)

end Instantiation

end Ascribe
