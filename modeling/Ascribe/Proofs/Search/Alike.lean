import Mathlib.Logic.Basic
import Ascribe.Proofs.Search.Returns

/-!
# Searches that cannot be told apart

Two searches are alike if they do the same as far as it can be observed: from states that an equivalence relates they
both give up with the same fault, or both give answers that look the same and end in states that the equivalence
relates. What of an answer can be observed is given by a view of it.

To see that a search does not depend on some feature of its input, compare it with itself on an input from which the
feature has been removed. If that is alike for every input, then it is for any two inputs that differ in the feature
only (`Search.Alike.congr₂`), since being alike is symmetric and transitive.

## Key results

- `Search.Alike.bind`, `Search.Alike.bindReduced`: sequencing
- `Search.Alike.anyM`, `Search.Alike.allM`, `Search.Alike.findM?`: searches over lists
-/

namespace Ascribe.Search

variable {σ α β γ δ : Type}

/-- Outcomes that cannot be told apart by a view of the answers and an equivalence of the states. -/
def LooksLike (S : Setoid σ) (view : α → β) : Except Fault (α × σ) → Except Fault (α × σ) → Prop
  | .ok (a, s), .ok (a', s') => view a = view a' ∧ S.r s s'
  | .error fault, .error fault' => fault = fault'
  | _, _ => False

/-- Searches whose outcomes cannot be told apart, from states that cannot be told apart. -/
def Alike (S : Setoid σ) (view : α → β) (x y : Search σ α) : Prop :=
  ∀ s s', S.r s s' → LooksLike S view (x.run s) (y.run s')

variable {S : Setoid σ} {view : α → β} {view' : γ → δ}

theorem LooksLike.symm {x y : Except Fault (α × σ)} (h : LooksLike S view x y) : LooksLike S view y x := by
  cases x <;> cases y
  · exact Eq.symm h
  · exact h
  · exact h
  · exact ⟨h.1.symm, S.symm h.2⟩

theorem LooksLike.trans {x y z : Except Fault (α × σ)} (h : LooksLike S view x y) (h' : LooksLike S view y z) :
    LooksLike S view x z := by
  cases x <;> cases y <;> cases z <;> try first | exact h.elim | exact h'.elim
  · exact Eq.trans h h'
  · exact ⟨h.1.trans h'.1, S.trans h.2 h'.2⟩

namespace Alike

variable {x y z : Search σ α}

theorem symm (h : Alike S view x y) : Alike S view y x :=
  fun s s' hs => (h s' s (S.symm hs)).symm

theorem trans (h : Alike S view x y) (h' : Alike S view y z) : Alike S view x z :=
  fun s s' hs => (h s s' hs).trans (h' s' s' (S.refl s'))

/-- A search is `Alike` to itself from equal states. -/
theorem refl (x : Search σ α) : Alike ⟨Eq, eq_equivalence⟩ view x x := by
  intro s s' hs
  obtain rfl : s = s' := hs
  cases x.run s with
  | error fault => exact rfl
  | ok outcome => exact ⟨rfl, rfl⟩

theorem pure {a a' : α} (h : view a = view a') : Alike S view (Pure.pure a) (Pure.pure a') :=
  fun _ _ hs => ⟨h, hs⟩

theorem throw (fault : Fault) : Alike S view (MonadExcept.throw fault) (MonadExcept.throw fault) :=
  fun _ _ _ => rfl

theorem bind {k l : α → Search σ γ} (hx : Alike S view x y)
    (hk : ∀ a a', view a = view a' → Alike S view' (k a) (l a')) : Alike S view' (x >>= k) (y >>= l) := by
  intro s s' hs
  have hxy := hx s s' hs
  rw [StateT.run_bind, StateT.run_bind]
  cases hxs : x.run s <;> cases hys : y.run s' <;> rw [hxs, hys] at hxy
  · exact hxy
  · exact hxy.elim
  · exact hxy.elim
  · exact hk _ _ hxy.1 _ _ hxy.2

/-- `Alike` is kept by `>>=`, if answers are viewed by `reduce` and the continuations depend on no more. -/
theorem bindReduced {reduce : α → α} {k l : α → Search σ γ} (hx : Alike S reduce x y)
    (hk : ∀ a, Alike S view' (k a) (l (reduce a))) (hl : ∀ a, Alike S view' (l a) (l (reduce a))) :
    Alike S view' (x >>= k) (y >>= l) := by
  refine bind hx fun a a' haa' => (hk a).trans ?_
  rw [haa']
  exact (hl a').symm

/-- `Alike` is kept by two searches after another, if the continuations depend on no more than the two reduced answers.
-/
theorem bindReduced₂ {ι : Type} {reduce : α → α} {reduce' : ι → ι} {x' y' : Search σ ι} {k l : α → ι → Search σ γ}
    (hx : Alike S reduce x y) (hy : Alike S reduce' x' y')
    (hk : ∀ a i, Alike S view' (k a i) (l (reduce a) (reduce' i)))
    (hl : ∀ a i, Alike S view' (l a i) (l (reduce a) (reduce' i))) :
    Alike S view' (do k (← x) (← x')) (do l (← y) (← y')) := by
  refine bind hx fun a a' haa' => bind hy fun i i' hii' => (hk a i).trans ?_
  rw [haa', hii']
  exact (hl a' i').symm

theorem map {f : α → γ} (h : Alike S view x y) (hf : ∀ a a', view a = view a' → view' (f a) = view' (f a')) :
    Alike S view' (f <$> x) (f <$> y) := by
  rw [← bind_pure_comp, ← bind_pure_comp]
  exact bind h fun a a' haa' => pure (hf a a' haa')

/-- `Alike` is kept by an `if` whose tests are equivalent. -/
theorem ite {test test' : Prop} [Decidable test] [Decidable test'] {x' y' : Search σ α} (htest : test ↔ test')
    (hx : Alike S view x x') (hy : Alike S view y y') :
    Alike S view (if test then x else y) (if test' then x' else y') := by
  by_cases h : test
  · rw [if_pos h, if_pos (htest.mp h)]
    exact hx
  · rw [if_neg h, if_neg (mt htest.mpr h)]
    exact hy

/-- A search that is `Alike` to itself at reduced inputs depends on no more than the reduced inputs. -/
theorem congr₂ {ι κ : Type} {reduce : ι → ι} {reduce' : κ → κ} {search : ι → κ → Search σ α}
    (h : ∀ i j, Alike S view (search i j) (search (reduce i) (reduce' j))) {i i' : ι} {j j' : κ}
    (hi : reduce i = reduce i') (hj : reduce' j = reduce' j') : Alike S view (search i j) (search i' j') := by
  have hleft := h i j
  rw [hi, hj] at hleft
  exact hleft.trans (h i' j').symm

/-- `Returns` carries over to a search that is `Alike`, if its condition depends on `view` alone. -/
theorem returns {P : α → Prop} (h : Alike S view x y) (hview : ∀ a a', view a = view a' → P a' → P a)
    (hy : y.Returns P) : x.Returns P := by
  intro s a s' hrun
  have hlooks := h s s (S.refl s)
  rw [hrun] at hlooks
  cases hrun' : y.run s with
  | error fault =>
    rw [hrun'] at hlooks
    exact hlooks.elim
  | ok outcome =>
    rw [hrun'] at hlooks
    exact hview a outcome.1 hlooks.1 (hy s outcome.1 outcome.2 hrun')

/-- The answers alone, by `run'`, of searches that are `Alike` have equal views. -/
theorem run'_eq (h : Alike S view x y) {s s' : σ} (hs : S.r s s') :
    view <$> x.run' s = view <$> y.run' s' := by
  have hlooks := h s s' hs
  rw [StateT.run'_eq, StateT.run'_eq]
  cases hx : x.run s <;> cases hy : y.run s' <;> rw [hx, hy] at hlooks
  · exact congrArg Except.error hlooks
  · exact hlooks.elim
  · exact hlooks.elim
  · exact congrArg Except.ok hlooks.1

/-! ## Lists -/

variable {image : α → γ} {xs : List α}

theorem anyM {f : α → Search σ Bool} {g : γ → Search σ Bool} (h : ∀ a ∈ xs, Alike S id (f a) (g (image a))) :
    Alike S id (xs.anyM f) ((xs.map image).anyM g) := by
  induction xs with
  | nil => exact pure rfl
  | cons a rest ih =>
    rw [List.forall_mem_cons] at h
    rw [List.map_cons, List.anyM, List.anyM]
    refine bind h.1 fun found found' hfound => ?_
    obtain rfl : found = found' := hfound
    cases found with
    | true => exact pure rfl
    | false => exact ih h.2

theorem allM {f : α → Search σ Bool} {g : γ → Search σ Bool} (h : ∀ a ∈ xs, Alike S id (f a) (g (image a))) :
    Alike S id (xs.allM f) ((xs.map image).allM g) := by
  induction xs with
  | nil => exact pure rfl
  | cons a rest ih =>
    rw [List.forall_mem_cons] at h
    rw [List.map_cons, List.allM, List.allM]
    refine bind h.1 fun found found' hfound => ?_
    obtain rfl : found = found' := hfound
    cases found with
    | true => exact ih h.2
    | false => exact pure rfl

theorem findM? {f g : α → Search σ Bool} {image : α → α} (hview : ∀ a, view (image a) = view a)
    (h : ∀ a ∈ xs, Alike S id (f a) (g (image a))) :
    Alike S (Option.map view) (xs.findM? f) ((xs.map image).findM? g) := by
  induction xs with
  | nil => exact pure rfl
  | cons a rest ih =>
    rw [List.forall_mem_cons] at h
    rw [List.map_cons, List.findM?, List.findM?]
    refine bind h.1 fun found found' hfound => ?_
    obtain rfl : found = found' := hfound
    cases found with
    | true => exact pure (congrArg some (hview a).symm)
    | false => exact ih h.2

end Alike

end Ascribe.Search
