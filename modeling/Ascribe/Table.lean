/-!
# Insertion-ordered tables

A finite map that remembers the order in which its keys were first inserted. Inserting a key that is
already present keeps its position and replaces its value.

The view of a table is `get?`; each operation has one lemma that says what it does to that view, and
`keys_insert` says what it does to the order.
-/

namespace Ascribe

/-- A finite map listed in order of first insertion. -/
structure Table (κ ν : Type) where
  /-- The pairs in order; a look-up takes the first pair with its key. -/
  entries : List (κ × ν) := []
  deriving Repr

namespace Table

variable {κ ν : Type} [BEq κ]

instance : EmptyCollection (Table κ ν) := ⟨⟨[]⟩⟩

instance : Inhabited (Table κ ν) := ⟨⟨[]⟩⟩

def isEmpty (t : Table κ ν) : Bool :=
  t.entries.isEmpty

def keys (t : Table κ ν) : List κ :=
  t.entries.map (·.1)

def values (t : Table κ ν) : List ν :=
  t.entries.map (·.2)

/-- The value stored under a key. -/
def get? (t : Table κ ν) (key : κ) : Option ν :=
  t.entries.lookup key

def contains (t : Table κ ν) (key : κ) : Bool :=
  (t.get? key).isSome

/-- Store `value` under `key` in a list of pairs: in place of the first pair with that key, or at the
end when there is none. -/
def insertEntry (key : κ) (value : ν) : List (κ × ν) → List (κ × ν)
  | [] => [(key, value)]
  | (k, v) :: rest => if key == k then (k, value) :: rest else (k, v) :: insertEntry key value rest

/-- Store `value` under `key`, keeping the position of a key that is already there. -/
def insert (t : Table κ ν) (key : κ) (value : ν) : Table κ ν :=
  ⟨insertEntry key value t.entries⟩

/-- Drop every pair whose key satisfies `drop`. -/
def without (t : Table κ ν) (drop : κ → Bool) : Table κ ν :=
  ⟨t.entries.filter fun e => !drop e.1⟩

/-- The table of a list of pairs, inserted from left to right. -/
def ofList (pairs : List (κ × ν)) : Table κ ν :=
  pairs.foldl (fun (t : Table κ ν) e => t.insert e.1 e.2) ∅

omit [BEq κ] in
/-- `without` changes nothing if none of its keys is there. -/
theorem without_eq_self {t : Table κ ν} {drop : κ → Bool} (h : ∀ e ∈ t.entries, drop e.1 = false) :
    t.without drop = t := by
  have all : t.entries.filter (fun e => !drop e.1) = t.entries :=
    List.filter_eq_self.mpr fun e he => by simp [h e he]
  rw [without, all]

@[simp] theorem get?_empty (key : κ) : (∅ : Table κ ν).get? key = none := rfl

theorem mem_values_of_get? {t : Table κ ν} {key : κ} {value : ν} (h : t.get? key = some value) : value ∈ t.values := by
  obtain ⟨entries⟩ := t
  simp only [get?, values] at h ⊢
  induction entries with
  | nil => simp at h
  | cons entry rest ih =>
    rw [List.lookup_cons] at h
    split at h
    · simp_all
    · exact List.mem_cons_of_mem _ (ih h)

/-- `values` after `insert` are the new value and values that were there before. -/
theorem mem_values_insert {t : Table κ ν} {key : κ} {value v : ν} (h : v ∈ (t.insert key value).values) :
    v = value ∨ v ∈ t.values := by
  obtain ⟨entries⟩ := t
  simp only [insert, values] at h ⊢
  induction entries with
  | nil => simp_all [insertEntry]
  | cons entry rest ih =>
    rw [insertEntry] at h
    split at h
    · rcases List.mem_cons.mp h with rfl | hrest
      · exact .inl rfl
      · exact .inr (List.mem_cons_of_mem _ hrest)
    · rcases List.mem_cons.mp h with rfl | hrest
      · exact .inr List.mem_cons_self
      · exact (ih hrest).imp_right (List.mem_cons_of_mem _)

/-- `insert` keeps the order of `keys` if the key is known, and puts a new one at the end. -/
theorem keys_insert (t : Table κ ν) (key : κ) (value : ν) :
    (t.insert key value).keys = if t.contains key then t.keys else t.keys ++ [key] := by
  obtain ⟨entries⟩ := t
  simp only [insert, keys, contains, get?]
  induction entries with
  | nil => simp [insertEntry]
  | cons e rest ih =>
    obtain ⟨k', v'⟩ := e
    by_cases h : key == k'
    · simp [insertEntry, List.lookup_cons, h]
    · simp only [insertEntry, List.lookup_cons, h, Bool.false_eq_true, if_false, List.map_cons, ih]
      split <;> rename_i hc <;> simp [hc]

variable [LawfulBEq κ]

theorem lookup_insertEntry (key k : κ) (value : ν) (entries : List (κ × ν)) :
    (insertEntry key value entries).lookup k =
      if k == key then some value else entries.lookup k := by
  induction entries with
  | nil => by_cases h : k == key <;> simp [insertEntry, List.lookup_cons, h]
  | cons e rest ih =>
    obtain ⟨k', v'⟩ := e
    by_cases h : key == k'
    · obtain rfl := eq_of_beq h
      by_cases hk : k == key <;> simp [insertEntry, List.lookup_cons, hk]
    · by_cases hk : k == k'
      · obtain rfl := eq_of_beq hk
        have hne : (k == key) = false := by
          by_cases h' : k == key
          · obtain rfl := eq_of_beq h'; simp at h
          · simpa using h'
        simp [insertEntry, h, hne]
      · simp [insertEntry, List.lookup_cons, h, hk, ih]

/-- `get?` after `insert` finds the new value under its key and the old values elsewhere. -/
@[simp] theorem get?_insert (t : Table κ ν) (key k : κ) (value : ν) :
    (t.insert key value).get? k = if k == key then some value else t.get? k :=
  lookup_insertEntry key k value t.entries

/-- `get?` after `without` finds nothing under the dropped keys and the old values elsewhere. -/
@[simp] theorem get?_without (t : Table κ ν) (drop : κ → Bool) (key : κ) :
    (t.without drop).get? key = if drop key then none else t.get? key := by
  obtain ⟨entries⟩ := t
  simp only [without, get?]
  induction entries with
  | nil => simp
  | cons e rest ih =>
    obtain ⟨k, v⟩ := e
    by_cases hk : key == k
    · obtain rfl := eq_of_beq hk
      by_cases hd : drop key
      · simp only [hd, if_true] at ih ⊢
        simpa [hd] using ih
      · simp [hd]
    · by_cases hd : drop k <;> simp [List.lookup_cons, hk, hd, ih]

end Table

end Ascribe
