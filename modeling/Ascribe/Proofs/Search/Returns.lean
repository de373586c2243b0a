import Ascribe.Search

/-!
# What a search returns

Partial correctness of searches. `Search.Returns x P` says that every answer of `x` satisfies `P`,
whatever the state it starts from; a search that gives up promises nothing. The rule for sequencing
is `Returns.bind`, which rests on `Search.run_bind_eq_ok`: a sequence answers exactly when both of its
parts do.

`Search.ReturnsUnder I x P` promises as much only from states that satisfy an invariant, which the search
keeps.

`Search.TotalUnder I x P` is total correctness: from every state that satisfies the invariant the search gives an
answer. `Search.Ensures` is both at once, so that what is true of either is proved once.

A yes-or-no search is specified by two propositions, one that is enough for the answer to be yes and
one that a yes implies (`Between`). Searches over lists are specified from the searches on their
elements.
-/

namespace Ascribe

/-- The answer is yes if `lo` holds, and only if `hi` does. -/
def Between (lo hi : Prop) (answer : Bool) : Prop :=
  (lo → answer = true) ∧ (answer = true → hi)

theorem Between.yes {lo hi : Prop} (h : hi) : Between lo hi true :=
  ⟨fun _ => rfl, fun _ => h⟩

theorem Between.no {lo hi : Prop} (h : ¬ lo) : Between lo hi false :=
  ⟨fun hlo => absurd hlo h, fun hno => nomatch hno⟩

/-- `Between` is monotone: the lower bound may be strengthened, and the upper one weakened. -/
theorem Between.mono {lo lo' hi hi' : Prop} {answer : Bool} (h : Between lo hi answer)
    (hlo : lo' → lo) (hhi : hi → hi') : Between lo' hi' answer :=
  ⟨fun h' => h.1 (hlo h'), fun hyes => hhi (h.2 hyes)⟩

theorem Between.not {lo hi : Prop} {answer : Bool} (h : Between lo hi answer) :
    Between (¬ hi) (¬ lo) (!answer) := by
  constructor
  · intro hhi
    cases answer with
    | false => rfl
    | true => exact absurd (h.2 rfl) hhi
  · intro hno hlo
    rw [h.1 hlo] at hno
    exact nomatch hno

/-- `x >>= k` is `ok` exactly when both of its parts are. -/
theorem bind_eq_ok {ε α β : Type} {x : Except ε α} {k : α → Except ε β} {w : β} :
    (x >>= k) = .ok w ↔ ∃ v, x = .ok v ∧ k v = .ok w := by
  cases x with
  | error e =>
    constructor
    · intro h
      exact nomatch h
    · rintro ⟨v, h, -⟩
      exact nomatch h
  | ok v =>
    constructor
    · intro h
      exact ⟨v, rfl, h⟩
    · rintro ⟨v', h, hk⟩
      obtain rfl := Except.ok.inj h
      exact hk

theorem map_eq_ok {ε α β : Type} {x : Except ε α} {f : α → β} {w : β} : f <$> x = .ok w ↔ ∃ v, x = .ok v ∧ f v = w := by
  cases x with
  | error e => simp [Functor.map, Except.map]
  | ok v => simp [Functor.map, Except.map]

theorem toOption_eq_some {α β : Type} {found : Except α β} {b : β} : found.toOption = some b ↔ found = .ok b := by
  cases found with
  | error fault => simp [Except.toOption]
  | ok b' => simp [Except.toOption]

namespace Search

variable {σ α β : Type}

/-- `(x >>= k).run` is `ok` exactly when `x` is and `k` is from the state that `x` leaves. -/
theorem run_bind_eq_ok {x : Search σ α} {k : α → Search σ β} {s s' : σ} {w : β} :
    (x >>= k).run s = .ok (w, s') ↔
      ∃ v s₁, x.run s = .ok (v, s₁) ∧ (k v).run s₁ = .ok (w, s') := by
  rw [StateT.run_bind, bind_eq_ok, Prod.exists]

theorem run_bind_of_ok {x : Search σ α} {k : α → Search σ β} {s s₁ : σ} {v : α} (h : x.run s = .ok (v, s₁)) :
    (x >>= k).run s = (k v).run s₁ := by
  rw [StateT.run_bind, h]
  rfl

theorem run_bind_of_error {x : Search σ α} {k : α → Search σ β} {s : σ} {fault : Fault}
    (h : x.run s = .error fault) : (x >>= k).run s = .error fault := by
  rw [StateT.run_bind, h]
  rfl

theorem run_pure_eq_ok {a v : α} {s s' : σ} :
    (pure a : Search σ α).run s = .ok (v, s') ↔ v = a ∧ s' = s := by
  constructor
  · intro h
    obtain ⟨rfl, rfl⟩ := Prod.mk.inj (Except.ok.inj h)
    exact ⟨rfl, rfl⟩
  · rintro ⟨rfl, rfl⟩
    rfl

theorem run_ofWalk_eq_ok {walk : Except Fault α} {v : α} {s s' : σ} :
    (ofWalk walk : Search σ α).run s = .ok (v, s') ↔ walk = .ok v ∧ s' = s := by
  cases walk with
  | error fault =>
    constructor
    · intro h
      exact nomatch h
    · rintro ⟨h, -⟩
      exact nomatch h
  | ok a =>
    rw [Except.ok.injEq, @eq_comm _ a]
    exact run_pure_eq_ok

theorem run_discard (x : Search σ α) (s : σ) :
    (discard x).run s = (fun found => ((), found.2)) <$> x.run s := by
  change ((fun _ => ()) <$> x).run s = _
  rw [StateT.run_map]

/-- A search whose answer passes a test by `Option.any` has an answer. -/
theorem exists_run_of_any {x : Search σ α} {s : σ} {P : α → Bool}
    (h : ((x.run s).toOption.any fun found => P found.1) = true) : ∃ a s', x.run s = .ok (a, s') ∧ P a = true := by
  obtain ⟨⟨a, s'⟩, hfound, ha⟩ := (Option.any_eq_true _ _).mp h
  exact ⟨a, s', toOption_eq_some.mp hfound, ha⟩

/-- Every answer of the search satisfies `P`. -/
def Returns (x : Search σ α) (P : α → Prop) : Prop :=
  ∀ s v s', x.run s = .ok (v, s') → P v

namespace Returns

variable {x : Search σ α} {P Q : α → Prop}

theorem pure {a : α} (h : P a) : Returns (pure a : Search σ α) P := by
  intro s v s' hrun
  obtain ⟨rfl, -⟩ := Prod.mk.inj (Except.ok.inj hrun)
  exact h

theorem exhausted : Returns (Search.exhausted : Search σ α) P := by
  intro s v s' hrun
  exact nomatch hrun

theorem bind {k : α → Search σ β} {R : β → Prop} (hx : Returns x P)
    (hk : ∀ a, P a → Returns (k a) R) : Returns (x >>= k) R := by
  intro s v s' hrun
  obtain ⟨a, s₁, ha, hb⟩ := run_bind_eq_ok.mp hrun
  exact hk a (hx s a s₁ ha) s₁ v s' hb

theorem mono (h : Returns x P) (hPQ : ∀ a, P a → Q a) : Returns x Q :=
  fun s v s' hrun => hPQ v (h s v s' hrun)

/-- `Returns` of `x >>= k` needs to look at the continuations only. -/
theorem after {k : α → Search σ β} {R : β → Prop} (hk : ∀ a, Returns (k a) R) : Returns (x >>= k) R :=
  bind (P := fun _ => True) (fun _ _ _ _ => trivial) fun a _ => hk a

theorem map {f : α → β} {R : β → Prop} (h : Returns x fun a => R (f a)) : Returns (f <$> x) R := by
  rw [← bind_pure_comp]
  exact bind h fun a ha => pure ha

/-- `anyM` lies `Between` the existential bounds of its element searches. -/
theorem anyM {check : α → Search σ Bool} {lo hi : α → Prop} {xs : List α}
    (h : ∀ x ∈ xs, Returns (check x) (Between (lo x) (hi x))) :
    Returns (xs.anyM check) (Between (∃ x ∈ xs, lo x) (∃ x ∈ xs, hi x)) := by
  induction xs with
  | nil => exact pure (.no (by simp))
  | cons x rest ih =>
    simp only [List.forall_mem_cons] at h
    rw [List.anyM]
    refine bind h.1 fun found hfound => ?_
    cases found with
    | true => exact pure (.yes ⟨x, List.mem_cons_self, hfound.2 rfl⟩)
    | false =>
      refine (ih h.2).mono fun answer hrest => hrest.mono ?_ ?_
      · -- the element itself was turned down, so it is one of the others
        rintro ⟨y, hy, hlo⟩
        rcases List.mem_cons.mp hy with rfl | hy
        · exact nomatch hfound.1 hlo
        · exact ⟨y, hy, hlo⟩
      · rintro ⟨y, hy, hhi⟩
        exact ⟨y, List.mem_cons_of_mem _ hy, hhi⟩

/-- `allM` lies `Between` the universal bounds of its element checks. -/
theorem allM {check : α → Search σ Bool} {lo hi : α → Prop} {xs : List α}
    (h : ∀ x ∈ xs, Returns (check x) (Between (lo x) (hi x))) :
    Returns (xs.allM check) (Between (∀ x ∈ xs, lo x) (∀ x ∈ xs, hi x)) := by
  induction xs with
  | nil => exact pure (.yes (by simp))
  | cons x rest ih =>
    simp only [List.forall_mem_cons] at h ⊢
    rw [List.allM]
    refine bind h.1 fun found hfound => ?_
    cases found with
    | true => exact (ih h.2).mono fun answer hrest => hrest.mono And.right fun hhi => ⟨hfound.2 rfl, hhi⟩
    | false => exact pure (.no fun hlo => nomatch hfound.1 hlo.1)

/-- `findM?` of a counterexample finds none if all elements are good, and only if they are. -/
theorem findM?_not {check : α → Search σ Bool} {lo hi : α → Prop} {xs : List α}
    (h : ∀ x ∈ xs, Returns (check x) (Between (lo x) (hi x))) :
    Returns (xs.findM? fun x => not <$> check x) fun found =>
      Between (∀ x ∈ xs, lo x) (∀ x ∈ xs, hi x) found.isNone := by
  induction xs with
  | nil => exact pure (.yes (by simp))
  | cons x rest ih =>
    simp only [List.forall_mem_cons] at h ⊢
    rw [List.findM?]
    refine bind (map (h.1.mono fun answer hanswer => hanswer.not)) fun bad hbad => ?_
    cases bad with
    | true => exact pure (.no fun hlo => hbad.2 rfl hlo.1)
    | false =>
      have hx : hi x := Classical.byContradiction fun hhi => nomatch hbad.1 hhi
      exact (ih h.2).mono fun answer hrest => hrest.mono And.right fun hhi => ⟨hx, hhi⟩

/-- A search for each element that finds `g` of it finds `g` of them all. -/
theorem mapM {f : α → Search σ β} {g : α → β} {xs : List α} (h : ∀ x ∈ xs, Returns (f x) (· = g x)) :
    Returns (xs.mapM f) (· = xs.map g) := by
  induction xs with
  | nil => exact pure rfl
  | cons x rest ih =>
    rw [List.forall_mem_cons] at h
    rw [List.mapM_cons]
    refine bind h.1 fun b hb => bind (ih h.2) fun bs hbs => pure ?_
    rw [hb, hbs, List.map_cons]

/-- What `filterMapM` keeps was found for one of the elements. -/
theorem filterMapM {f : α → Search σ (Option β)} {R : α → β → Prop} {xs : List α}
    (h : ∀ x ∈ xs, Returns (f x) fun found => ∀ b, found = some b → R x b) :
    Returns (xs.filterMapM f) fun found => ∀ b ∈ found, ∃ x ∈ xs, R x b := by
  induction xs with
  | nil => exact pure (by simp)
  | cons x rest ih =>
    rw [List.forall_mem_cons] at h
    rw [List.filterMapM_cons]
    have hrest : Returns (rest.filterMapM f) fun found => ∀ b ∈ found, ∃ y ∈ x :: rest, R y b := by
      refine (ih h.2).mono fun found hfound b hb => ?_
      obtain ⟨y, hy, hyb⟩ := hfound b hb
      exact ⟨y, List.mem_cons_of_mem x hy, hyb⟩
    refine bind h.1 fun found hfound => ?_
    cases found with
    | none => exact hrest
    | some b =>
      refine bind hrest fun bs hbs => pure ?_
      exact List.forall_mem_cons.mpr ⟨⟨x, List.mem_cons_self, hfound b rfl⟩, hbs⟩

/-- If a yes of `check` means `P`, then the element that `findM?` finds satisfies it. -/
theorem findM? {check : α → Search σ Bool} {xs : List α}
    (h : ∀ x ∈ xs, Returns (check x) fun yes => yes = true → P x) :
    Returns (xs.findM? check) fun found => ∀ x, found = some x → x ∈ xs ∧ P x := by
  induction xs with
  | nil => exact pure nofun
  | cons x rest ih =>
    rw [List.forall_mem_cons] at h
    rw [List.findM?]
    refine bind h.1 fun yes hyes => ?_
    cases yes with
    | true =>
      refine pure fun y hy => ?_
      obtain rfl := Option.some.inj hy
      exact ⟨List.mem_cons_self, hyes rfl⟩
    | false => exact (ih h.2).mono fun found hfound y hy => (hfound y hy).imp_left (List.mem_cons_of_mem x)

end Returns

/-- From a state that satisfies `I` the search ends in one that does, and its answer satisfies `P`. -/
def ReturnsUnder (I : σ → Prop) (x : Search σ α) (P : α → Prop) : Prop :=
  ∀ s v s', I s → x.run s = .ok (v, s') → I s' ∧ P v

namespace ReturnsUnder

variable {I : σ → Prop} {x : Search σ α} {P Q : α → Prop}

theorem pure {a : α} (h : P a) : ReturnsUnder I (pure a) P := by
  intro s v s' hs hrun
  obtain ⟨rfl, rfl⟩ := run_pure_eq_ok.mp hrun
  exact ⟨hs, h⟩

theorem ofWalk (walk : Except Fault α) : ReturnsUnder I (ofWalk walk) (walk = .ok ·) := by
  intro s v s' hs hrun
  obtain ⟨hwalk, rfl⟩ := run_ofWalk_eq_ok.mp hrun
  exact ⟨hs, hwalk⟩

theorem bind {k : α → Search σ β} {R : β → Prop} (hx : ReturnsUnder I x P)
    (hk : ∀ a, P a → ReturnsUnder I (k a) R) : ReturnsUnder I (x >>= k) R := by
  intro s v s' hs hrun
  obtain ⟨a, s₁, ha, hb⟩ := run_bind_eq_ok.mp hrun
  obtain ⟨hs₁, hPa⟩ := hx s a s₁ hs ha
  exact hk a hPa s₁ v s' hs₁ hb

theorem mono (h : ReturnsUnder I x P) (hPQ : ∀ a, P a → Q a) : ReturnsUnder I x Q := by
  intro s v s' hs hrun
  obtain ⟨hs', hv⟩ := h s v s' hs hrun
  exact ⟨hs', hPQ v hv⟩

end ReturnsUnder

/-- From a state that satisfies `I` the search ends in one that does, and its answer satisfies `P`. If it is to be
`total`, it gives an answer. -/
def Ensures (total : Prop) (I : σ → Prop) (x : Search σ α) (P : α → Prop) : Prop :=
  ∀ s, I s → (∀ v s', x.run s = .ok (v, s') → I s' ∧ P v) ∧ (total → ∃ v s', x.run s = .ok (v, s'))

namespace Ensures

variable {total : Prop} {I : σ → Prop} {x : Search σ α} {P Q : α → Prop}

theorem pure {a : α} (h : P a) : Ensures total I (pure a) P := by
  intro s hs
  refine ⟨fun v s' hrun => ?_, fun _ => ⟨a, s, rfl⟩⟩
  obtain ⟨rfl, rfl⟩ := run_pure_eq_ok.mp hrun
  exact ⟨hs, h⟩

theorem throw {fault : Fault} : Ensures False I (throw fault) P := by
  refine fun s _ => ⟨fun v s' hrun => ?_, False.elim⟩
  cases hrun

theorem ofWalk {walk : Except Fault α} (h : total → ∃ v, walk = .ok v) :
    Ensures total I (ofWalk walk) (walk = .ok ·) := by
  intro s hs
  refine ⟨fun v s' hrun => ?_, fun htotal => ?_⟩
  · obtain ⟨hwalk, rfl⟩ := run_ofWalk_eq_ok.mp hrun
    exact ⟨hs, hwalk⟩
  · obtain ⟨v, hwalk⟩ := h htotal
    exact ⟨v, s, run_ofWalk_eq_ok.mpr ⟨hwalk, rfl⟩⟩

theorem bind {k : α → Search σ β} {R : β → Prop} (hx : Ensures total I x P)
    (hk : ∀ a, P a → Ensures total I (k a) R) : Ensures total I (x >>= k) R := by
  intro s hs
  refine ⟨fun w s' hrun => ?_, fun htotal => ?_⟩
  · obtain ⟨a, s₁, ha, hb⟩ := run_bind_eq_ok.mp hrun
    obtain ⟨hs₁, hPa⟩ := (hx s hs).1 a s₁ ha
    exact (hk a hPa s₁ hs₁).1 w s' hb
  · obtain ⟨a, s₁, ha⟩ := (hx s hs).2 htotal
    obtain ⟨hs₁, hPa⟩ := (hx s hs).1 a s₁ ha
    obtain ⟨b, s₂, hb⟩ := (hk a hPa s₁ hs₁).2 htotal
    exact ⟨b, s₂, run_bind_eq_ok.mpr ⟨a, s₁, ha, hb⟩⟩

theorem mono (h : Ensures total I x P) (hPQ : ∀ a, P a → Q a) : Ensures total I x Q := by
  intro s hs
  refine ⟨fun v s' hrun => ?_, (h s hs).2⟩
  obtain ⟨hs', hv⟩ := (h s hs).1 v s' hrun
  exact ⟨hs', hPQ v hv⟩

theorem map {f : α → β} {R : β → Prop} (h : Ensures total I x fun a => R (f a)) : Ensures total I (f <$> x) R := by
  rw [← bind_pure_comp]
  exact bind h fun a ha => pure ha

/-- `Ensures` is kept by an `if` between searches that are continued alike. -/
theorem iteBind {test : Prop} [Decidable test] {y : Search σ α} {k : α → Search σ β} {R : β → Prop}
    (hx : test → Ensures total I x P) (hy : ¬ test → Ensures total I y P) (hk : ∀ a, P a → Ensures total I (k a) R) :
    Ensures total I (if test then x >>= k else y >>= k) R := by
  split
  · next htest => exact bind (hx htest) hk
  · next htest => exact bind (hy htest) hk

theorem optionMapM {f : α → Search σ β} {R : β → Prop} {o : Option α} (h : ∀ a ∈ o, Ensures total I (f a) R) :
    Ensures total I (o.mapM f) fun found => ∀ b ∈ found, R b := by
  cases o with
  | none => exact pure (by simp)
  | some a =>
    refine map ((h a rfl).mono fun b hb => ?_)
    simpa using hb

theorem mapM {f : α → Search σ β} {R : β → Prop} {xs : List α} (h : ∀ x ∈ xs, Ensures total I (f x) R) :
    Ensures total I (xs.mapM f) fun found => ∀ b ∈ found, R b := by
  induction xs with
  | nil => exact pure (by simp)
  | cons x rest ih =>
    rw [List.forall_mem_cons] at h
    rw [List.mapM_cons]
    refine bind h.1 fun b hb => bind (ih h.2) fun bs hbs => pure ?_
    exact List.forall_mem_cons.mpr ⟨hb, hbs⟩

theorem filterMapM {f : α → Search σ (Option β)} {R : β → Prop} {xs : List α}
    (h : ∀ x ∈ xs, Ensures total I (f x) fun found => ∀ b ∈ found, R b) :
    Ensures total I (xs.filterMapM f) fun found => ∀ b ∈ found, R b := by
  induction xs with
  | nil => exact pure (by simp)
  | cons x rest ih =>
    rw [List.forall_mem_cons] at h
    rw [List.filterMapM_cons]
    refine bind h.1 fun found hfound => ?_
    cases found with
    | none => exact ih h.2
    | some b =>
      refine bind (ih h.2) fun bs hbs => pure ?_
      exact List.forall_mem_cons.mpr ⟨hfound b rfl, hbs⟩

theorem anyM {check : α → Search σ Bool} {xs : List α} (h : ∀ x ∈ xs, Ensures total I (check x) fun _ => True) :
    Ensures total I (xs.anyM check) fun _ => True := by
  induction xs with
  | nil => exact pure trivial
  | cons x rest ih =>
    rw [List.forall_mem_cons] at h
    rw [List.anyM]
    refine bind h.1 fun found _ => ?_
    cases found with
    | true => exact pure trivial
    | false => exact ih h.2

theorem allM {check : α → Search σ Bool} {xs : List α} (h : ∀ x ∈ xs, Ensures total I (check x) fun _ => True) :
    Ensures total I (xs.allM check) fun _ => True := by
  induction xs with
  | nil => exact pure trivial
  | cons x rest ih =>
    rw [List.forall_mem_cons] at h
    rw [List.allM]
    refine bind h.1 fun found _ => ?_
    cases found with
    | true => exact ih h.2
    | false => exact pure trivial

theorem findM? {check : α → Search σ Bool} {xs : List α} (h : ∀ x ∈ xs, Ensures total I (check x) fun _ => True) :
    Ensures total I (xs.findM? check) fun found => ∀ x ∈ found, x ∈ xs := by
  induction xs with
  | nil => exact pure (by simp)
  | cons x rest ih =>
    rw [List.forall_mem_cons] at h
    rw [List.findM?]
    refine bind h.1 fun found _ => ?_
    cases found with
    | true => exact pure (by simp)
    | false => exact (ih h.2).mono fun found hfound y hy => List.mem_cons_of_mem x (hfound y hy)

end Ensures

/-- From a state that satisfies `I` the search gives an answer, which satisfies `P`, and ends in a state that satisfies
`I`. -/
def TotalUnder (I : σ → Prop) (x : Search σ α) (P : α → Prop) : Prop :=
  ∀ s, I s → ∃ v s', x.run s = .ok (v, s') ∧ I s' ∧ P v

theorem ensures_true_iff {I : σ → Prop} {x : Search σ α} {P : α → Prop} :
    Ensures True I x P ↔ TotalUnder I x P := by
  constructor
  · intro h s hs
    obtain ⟨v, s', hrun⟩ := (h s hs).2 trivial
    exact ⟨v, s', hrun, (h s hs).1 v s' hrun⟩
  · intro h s hs
    obtain ⟨v, s', hrun, hs', hv⟩ := h s hs
    refine ⟨fun w s'' hrun' => ?_, fun _ => ⟨v, s', hrun⟩⟩
    obtain ⟨rfl, rfl⟩ := Prod.mk.inj (Except.ok.inj (hrun'.symm.trans hrun))
    exact ⟨hs', hv⟩

namespace TotalUnder

variable {I : σ → Prop} {x : Search σ α} {P Q : α → Prop}

theorem pure {a : α} (h : P a) : TotalUnder I (pure a) P :=
  ensures_true_iff.mp (.pure h)

theorem bind {k : α → Search σ β} {R : β → Prop} (hx : TotalUnder I x P)
    (hk : ∀ a, P a → TotalUnder I (k a) R) : TotalUnder I (x >>= k) R :=
  ensures_true_iff.mp (.bind (ensures_true_iff.mpr hx) fun a ha => ensures_true_iff.mpr (hk a ha))

theorem mono (h : TotalUnder I x P) (hPQ : ∀ a, P a → Q a) : TotalUnder I x Q :=
  ensures_true_iff.mp (.mono (ensures_true_iff.mpr h) hPQ)

theorem map {f : α → β} {R : β → Prop} (h : TotalUnder I x fun a => R (f a)) : TotalUnder I (f <$> x) R :=
  ensures_true_iff.mp (.map (ensures_true_iff.mpr h))

/-- A search that is `TotalUnder` an invariant has an answer of which also every fact of `Returns` holds. -/
theorem and (h : TotalUnder I x P) (hreturns : Returns x Q) : TotalUnder I x fun a => P a ∧ Q a := by
  intro s hs
  obtain ⟨v, s', hrun, hs', hv⟩ := h s hs
  exact ⟨v, s', hrun, hs', hv, hreturns s v s' hrun⟩

theorem andUnder (h : TotalUnder I x P) (hreturns : ReturnsUnder I x Q) : TotalUnder I x fun a => P a ∧ Q a := by
  intro s hs
  obtain ⟨v, s', hrun, hs', hv⟩ := h s hs
  exact ⟨v, s', hrun, hs', hv, (hreturns s v s' hs hrun).2⟩

end TotalUnder

end Search

end Ascribe
