import Mathlib.Data.List.Nodup
import Ascribe.Table

/-!
# What tables list

Beyond the laws of `get?`, which stand beside the definitions: a key is there if it is listed, a new key goes to the
end, and storing what is there already changes nothing.
-/

namespace Ascribe.Table

variable {κ ν : Type} [BEq κ] [LawfulBEq κ]

theorem contains_iff_mem_keys {t : Table κ ν} {key : κ} : t.contains key = true ↔ key ∈ t.keys := by
  rw [contains, get?, Option.isSome_iff_ne_none, Ne, List.lookup_eq_none_iff]
  simp [keys]

theorem insertEntry_of_notMem {entries : List (κ × ν)} {key : κ} (h : key ∉ entries.map Prod.fst) (value : ν) :
    insertEntry key value entries = entries ++ [(key, value)] := by
  induction entries with
  | nil => rfl
  | cons e rest ih =>
    simp only [List.map_cons, List.mem_cons, not_or] at h
    have hne : ¬ (key == e.1) = true := by simpa using h.1
    simp [insertEntry, hne, ih h.2]

/-- `Table.ofList` leaves pairs of distinct keys as they are. -/
theorem ofList_of_nodup {pairs : List (κ × ν)} (h : (pairs.map Prod.fst).Nodup) : ofList pairs = ⟨pairs⟩ := by
  -- a pair whose key is new goes to the end
  have append (before : List (κ × ν)) (hdistinct : ((before ++ pairs).map Prod.fst).Nodup) :
      pairs.foldl (fun (t : Table κ ν) e => t.insert e.1 e.2) ⟨before⟩ = ⟨before ++ pairs⟩ := by
    clear h
    induction pairs generalizing before with
    | nil => simp
    | cons e rest ih =>
      have hnew : e.1 ∉ before.map Prod.fst := by
        intro hmem
        rw [List.map_append, List.nodup_append] at hdistinct
        exact hdistinct.2.2 _ hmem e.1 (by simp) rfl
      rw [List.append_cons] at hdistinct ⊢
      rw [List.foldl_cons, insert, insertEntry_of_notMem hnew]
      exact ih _ hdistinct
  exact append [] h

theorem isEmpty_iff_get? {t : Table κ ν} : t.isEmpty = true ↔ ∀ key, t.get? key = none := by
  obtain ⟨entries⟩ := t
  simp only [isEmpty, get?, List.isEmpty_iff, List.lookup_eq_none_iff]
  constructor
  · rintro rfl
    simp
  · intro h
    cases entries with
    | nil => rfl
    | cons e rest => simpa using h e.1 e

/-- `Table.insert` changes nothing if `Table.get?` finds the value under the key already. -/
theorem insert_of_get? {t : Table κ ν} {key : κ} {value : ν} (h : t.get? key = some value) :
    t.insert key value = t := by
  obtain ⟨entries⟩ := t
  have same : insertEntry key value entries = entries := by
    rw [get?] at h
    induction entries with
    | nil => cases h
    | cons e rest ih =>
      obtain ⟨k, v⟩ := e
      rw [List.lookup_cons] at h
      rw [insertEntry]
      split at h
      · next hkey =>
        rw [if_pos hkey, Option.some.inj h]
      · next hkey =>
        rw [if_neg (by simpa using hkey), ih h]
  rw [insert, same]

end Ascribe.Table
