/-!
# Maps keyed by nodes

A finite map from positions in a tree, kept as an array with a slot for each position. The view of a map
is `get?`, and each operation has one lemma about it.
-/

namespace Ascribe

/-- A finite map keyed by the positions of nodes. -/
structure NodeMap (α : Type) where
  slots : Array (Option α) := #[]
  deriving Inhabited

namespace NodeMap

variable {α : Type}

instance : EmptyCollection (NodeMap α) := ⟨⟨#[]⟩⟩

def get? (m : NodeMap α) (id : Nat) : Option α :=
  m.slots[id]?.join

/-- Put `slot` at a position, adding empty slots up to it when it lies beyond the end. -/
def set (m : NodeMap α) (id : Nat) (slot : Option α) : NodeMap α :=
  if id < m.slots.size then ⟨m.slots.setIfInBounds id slot⟩
  else ⟨(m.slots ++ Array.replicate (id - m.slots.size) none).push slot⟩

def insert (m : NodeMap α) (id : Nat) (value : α) : NodeMap α :=
  m.set id (some value)

def erase (m : NodeMap α) (id : Nat) : NodeMap α :=
  m.set id none

@[simp] theorem get?_empty (id : Nat) : (∅ : NodeMap α).get? id = none := by
  simp [EmptyCollection.emptyCollection, get?]

theorem get?_set (m : NodeMap α) (id other : Nat) (slot : Option α) :
    (m.set id slot).get? other = if other = id then slot else m.get? other := by
  unfold set get?
  split
  · rename_i h
    by_cases ho : other = id
    · subst ho
      simp [h]
    · have : id ≠ other := fun h => ho h.symm
      simp [ho, this]
  · rename_i h
    have hle : m.slots.size ≤ id := Nat.le_of_not_lt h
    by_cases ho : other = id
    · subst ho
      have : other = m.slots.size + (other - m.slots.size) := by omega
      simp only [Array.getElem?_push, Array.size_append, Array.size_replicate, if_true]
      rw [if_pos this]
      rfl
    · simp only [ho, if_false, Array.getElem?_push, Array.size_append, Array.size_replicate]
      have : ¬ other = m.slots.size + (id - m.slots.size) := by omega
      simp only [this, if_false, Array.getElem?_append]
      split
      · rfl
      · rename_i hs
        simp only [Array.getElem?_replicate]
        have hnone : m.slots[other]? = none := by simp; omega
        rw [hnone]
        split <;> rfl

@[simp] theorem get?_insert (m : NodeMap α) (id other : Nat) (value : α) :
    (m.insert id value).get? other = if other = id then some value else m.get? other :=
  get?_set m id other (some value)

@[simp] theorem get?_erase (m : NodeMap α) (id other : Nat) :
    (m.erase id).get? other = if other = id then none else m.get? other :=
  get?_set m id other none

end NodeMap

end Ascribe
