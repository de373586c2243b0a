import Ascribe.Search

/-!
# Searches in lockstep

Two searches run in lockstep when they ask their questions in the same order and go on alike after the
same answers. A `Lockstep` is a relation between searches over two kinds of state that pure answers and
faults satisfy and that sequencing keeps. It says nothing else about the states, so a search that is
built from questions is related to its counterpart as soon as the questions are, whatever the relation
expresses: an invariant of the state, that a deeper search finds the same answer, or that two searches
which keep different books agree.

The searches over lists that the rules use keep every lockstep (`Lockstep.mapM` to `Lockstep.allM`).
-/

namespace Ascribe

/-- A relation between searches with answers of the same type that is closed under sequencing. -/
structure Lockstep (σ τ : Type) where
  Rel : {α : Type} → Search σ α → Search τ α → Prop
  pure : ∀ {α : Type} (a : α), Rel (pure a) (pure a)
  throw : ∀ {α : Type} (fault : Fault), Rel (throw fault : Search σ α) (throw fault)
  bind : ∀ {α β : Type} {x : Search σ α} {y : Search τ α} {k : α → Search σ β} {l : α → Search τ β},
    Rel x y → (∀ a, Rel (k a) (l a)) → Rel (x >>= k) (y >>= l)

namespace Lockstep

variable {σ τ α β : Type} (L : Lockstep σ τ)

theorem exhausted : L.Rel (Search.exhausted : Search σ α) Search.exhausted :=
  L.throw .tooDeep

theorem ofWalk (walk : Except Fault α) : L.Rel (Search.ofWalk walk) (Search.ofWalk walk) := by
  cases walk with
  | ok a => exact L.pure a
  | error fault => exact L.throw fault

variable {L}

theorem map {x : Search σ α} {y : Search τ α} (f : α → β) (h : L.Rel x y) :
    L.Rel (f <$> x) (f <$> y) := by
  rw [← bind_pure_comp, ← bind_pure_comp]
  exact L.bind h fun a => L.pure (f a)

/-- `Lockstep.Rel` is kept by an `if` between searches that are continued alike. -/
theorem iteBind {test : Prop} [Decidable test] {x x' : Search σ α} {y y' : Search τ α}
    {k : α → Search σ β} {l : α → Search τ β} (h : test → L.Rel x y) (h' : ¬ test → L.Rel x' y')
    (hk : ∀ a, L.Rel (k a) (l a)) :
    L.Rel (if test then x >>= k else x' >>= k) (if test then y >>= l else y' >>= l) := by
  split
  · next htest => exact L.bind (h htest) hk
  · next htest => exact L.bind (h' htest) hk

theorem discard {x : Search σ α} {y : Search τ α} (h : L.Rel x y) :
    L.Rel (Functor.discard x) (Functor.discard y) :=
  map (fun _ => ()) h

theorem mapM {f : α → Search σ β} {g : α → Search τ β} (h : ∀ a, L.Rel (f a) (g a)) (xs : List α) :
    L.Rel (xs.mapM f) (xs.mapM g) := by
  induction xs with
  | nil => exact L.pure []
  | cons x rest ih =>
    rw [List.mapM_cons, List.mapM_cons]
    exact L.bind (h x) fun b => L.bind ih fun bs => L.pure (b :: bs)

theorem optionMapM {f : α → Search σ β} {g : α → Search τ β} (h : ∀ a, L.Rel (f a) (g a))
    (o : Option α) : L.Rel (o.mapM f) (o.mapM g) := by
  cases o with
  | none => exact L.pure none
  | some a => exact map some (h a)

theorem filterMapM {f : α → Search σ (Option β)} {g : α → Search τ (Option β)}
    (h : ∀ a, L.Rel (f a) (g a)) (xs : List α) : L.Rel (xs.filterMapM f) (xs.filterMapM g) := by
  induction xs with
  | nil => exact L.pure []
  | cons x rest ih =>
    rw [List.filterMapM_cons, List.filterMapM_cons]
    refine L.bind (h x) fun found => ?_
    cases found with
    | none => exact ih
    | some b => exact L.bind ih fun bs => L.pure (b :: bs)

theorem findM? {f : α → Search σ Bool} {g : α → Search τ Bool} (h : ∀ a, L.Rel (f a) (g a))
    (xs : List α) : L.Rel (xs.findM? f) (xs.findM? g) := by
  induction xs with
  | nil => exact L.pure none
  | cons x rest ih =>
    rw [List.findM?, List.findM?]
    refine L.bind (h x) fun found => ?_
    cases found with
    | true => exact L.pure (some x)
    | false => exact ih

theorem anyM {f : α → Search σ Bool} {g : α → Search τ Bool} (h : ∀ a, L.Rel (f a) (g a))
    (xs : List α) : L.Rel (xs.anyM f) (xs.anyM g) := by
  induction xs with
  | nil => exact L.pure false
  | cons x rest ih =>
    rw [List.anyM, List.anyM]
    refine L.bind (h x) fun found => ?_
    cases found with
    | true => exact L.pure true
    | false => exact ih

theorem allM {f : α → Search σ Bool} {g : α → Search τ Bool} (h : ∀ a, L.Rel (f a) (g a))
    (xs : List α) : L.Rel (xs.allM f) (xs.allM g) := by
  induction xs with
  | nil => exact L.pure true
  | cons x rest ih =>
    rw [List.allM, List.allM]
    refine L.bind (h x) fun found => ?_
    cases found with
    | true => exact ih
    | false => exact L.pure false

/-! ## Going deeper -/

/-- The first search does what the second one does, unless that one goes too deep. -/
def deepens (σ : Type) : Lockstep σ σ where
  Rel x y := ∀ s, y.run s = .error .tooDeep ∨ x.run s = y.run s
  pure _ := fun _ => .inr rfl
  throw _ := fun _ => .inr rfl
  bind := by
    intro α β x y k l hx hk s
    rw [StateT.run_bind, StateT.run_bind]
    rcases hx s with hdeep | hsame
    · rw [hdeep]
      exact .inl rfl
    · rw [hsame]
      cases y.run s with
      | error fault => exact .inr rfl
      | ok found => exact hk found.1 found.2

theorem deepens_refl (x : Search σ α) : (deepens σ).Rel x x :=
  fun _ => .inr rfl

theorem deepens_exhausted (x : Search σ α) : (deepens σ).Rel x Search.exhausted :=
  fun _ => .inl rfl

end Lockstep

end Ascribe
