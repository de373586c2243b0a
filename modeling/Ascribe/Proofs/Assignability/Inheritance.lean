import Mathlib.Data.Set.Card
import Ascribe.Proofs.Assignability.Fixed
import Ascribe.Proofs.Assignability.Totality

/-!
# Inherited methods

An interface has its own methods and those of its super-interfaces, of their super-interfaces, and so on. Which types
are super-interfaces depends on what named types stand for, so there may be cycles, one type may be reached on several
ways, and there may be no end of ever larger types.

They are found by a walk with a list of pending types. One step takes the next pending type (`Walk.step`): a type that
was seen before is passed over, and so is every type once `maxAliasChain` and one more have been visited; any other
type is visited, which adds the methods of the interface that it stands for and makes the super-interfaces of that
interface pending. A visit leaves fewer visits, and any other step leaves as many and fewer pending types, so every walk
ends. At any time the types that were visited are different super-interfaces and contribute the methods that were
found (`Walk.Sound`). As long as no type is passed over for want of visits, every super-interface of what was visited
is seen or pending (`Walk.Covers`). So nothing is missing when no type is pending any more.

## Key results

- `Walk.step_wellFounded`: walks end
- `Walk.leads_inherited`: they end with the methods that are inherited
- `Walk.Sound.step`, `Walk.Met.step`, `Walk.Covers.step`: what a step keeps
- `Unfolding.interfaceMethods_complete`: the methods of an interface
-/

namespace Ascribe

variable {σ : Type} {f : Unfolding} {body : InterfaceBody Ty} {t u : Ty}

/-- A type that a list of types does not `contains` can be added to them, and they stay different up to `Ty.erase`. -/
theorem Ty.nodup_cons_of_contains {ts : List Ty} (ht : ts.contains t = false) (hdistinct : (ts.map Ty.erase).Nodup) :
    ((t :: ts).map Ty.erase).Nodup := by
  rw [List.map_cons, List.nodup_cons, ← Ty.contains_iff_erase_mem, ht]
  exact ⟨by decide, hdistinct⟩

/-- Of different types exactly one is `same` as a type that one of them is the same as. -/
theorem Ty.countP_same_eq_one {ts : List Ty} (hdistinct : (ts.map Ty.erase).Nodup) (h : t.erase ∈ ts.map Ty.erase) :
    ts.countP (·.same t) = 1 := by
  induction ts with
  | nil => cases h
  | cons first rest ih =>
    rw [List.map_cons, List.nodup_cons] at hdistinct
    rw [List.map_cons, List.mem_cons] at h
    by_cases hfirst : first.same t = true
    · have hrest : rest.countP (·.same t) = 0 := by
        rw [List.countP_eq_zero]
        intro other hother hsame
        rw [Ty.same_iff_erase_eq] at hfirst hsame
        exact hdistinct.1 (hfirst.trans hsame.symm ▸ List.mem_map_of_mem hother)
      rw [List.countP_cons, hrest, if_pos hfirst]
    · have hne : t.erase ≠ first.erase := fun heq => hfirst ((Ty.same_iff_erase_eq _ _).mpr heq.symm)
      rw [List.countP_cons, if_neg hfirst]
      exact ih hdistinct.2 (h.resolve_left hne)

namespace Unfolding

/-- The methods that a super-interface contributes: those of the interface that it stands for, if it does. -/
def contributed (f : Unfolding) (t : Ty) : List (Method Ty) :=
  match (f.declared t).2.interface? with
  | some body => body.methods
  | none => []

/-- The types that the interface which a type stands for is declared below. -/
def supersOf (f : Unfolding) (t : Ty) : List Ty :=
  match (f.declared t).2.interface? with
  | some body => body.supers
  | none => []

/-- The super-interfaces of an interface, near and far. -/
inductive Inherits (f : Unfolding) (body : InterfaceBody Ty) : Ty → Prop where
  | direct {t : Ty} (h : t ∈ body.supers) : Inherits f body t
  | indirect {t u : Ty} (h : Inherits f body t) (hu : u ∈ f.supersOf t) : Inherits f body u

/-- How many different super-interfaces an interface has. -/
noncomputable def inheritedCount (f : Unfolding) (body : InterfaceBody Ty) : ℕ∞ :=
  (Ty.erase '' {t | f.Inherits body t}).encard

/-- Different types that the interface `Inherits` are no more than `inheritedCount`. -/
theorem length_le_inheritedCount {ts : List Ty} (hdistinct : (ts.map Ty.erase).Nodup)
    (h : ∀ t ∈ ts, f.Inherits body t) : (ts.length : ℕ∞) ≤ f.inheritedCount body := by
  classical
  have hsubset : ((ts.map Ty.erase).toFinset : Set Ty) ⊆ Ty.erase '' {t | f.Inherits body t} := by
    intro e he
    rw [List.coe_toFinset, Set.mem_ofPred_eq] at he
    obtain ⟨t, ht, rfl⟩ := List.mem_map.mp he
    exact ⟨t, h t ht, rfl⟩
  calc (ts.length : ℕ∞) = ((ts.map Ty.erase).toFinset : Set Ty).encard := by
        rw [Set.encard_coe_eq_coe_finsetCard, List.toFinset_card_of_nodup hdistinct, List.length_map]
    _ ≤ f.inheritedCount body := Set.encard_le_encard hsubset

/-- Types that include all that the interface `Inherits` are at least `inheritedCount` many. -/
theorem inheritedCount_le_length {ts : List Ty} (h : ∀ t, f.Inherits body t → t ∈ ts) :
    f.inheritedCount body ≤ ts.length := by
  classical
  have hsubset : Ty.erase '' {t | f.Inherits body t} ⊆ ((ts.map Ty.erase).toFinset : Set Ty) := by
    rintro _ ⟨t, ht, rfl⟩
    rw [List.coe_toFinset, Set.mem_ofPred_eq]
    exact List.mem_map_of_mem (h t ht)
  calc f.inheritedCount body ≤ ((ts.map Ty.erase).toFinset : Set Ty).encard := Set.encard_le_encard hsubset
    _ = (ts.map Ty.erase).toFinset.card := Set.encard_coe_eq_coe_finsetCard _
    _ ≤ ts.length := by
        rw [Nat.cast_le, ← List.length_map Ty.erase]
        exact List.toFinset_card_le _

/-- `supersOf` depends on a type up to `Ty.erase`, as far as it can be told up to that. -/
theorem supersOf_congr (hf : f.Respects) (h : t.erase = u.erase) :
    (f.supersOf t).map Ty.erase = (f.supersOf u).map Ty.erase := by
  have hbody := congrArg Ty.interface? (declared_congr hf h).2
  simp only [interface?_erase] at hbody
  unfold supersOf
  cases ht : (f.declared t).2.interface? <;> cases hu : (f.declared u).2.interface? <;> simp_all

end Unfolding

/-- The resolver always answers, and as the unfolding does. -/
def Resolver.Answers (resolve : Resolver σ) (f : Unfolding) : Prop :=
  ∀ r s, ∃ s', (resolve r).run s = .ok (f r, s')

/-! ## The walk -/

/-- Where a walk over super-interfaces is: the methods that were found, the types that were visited, the last one
first, and those that are pending, the next one first. -/
structure Walk where
  methods : List (Method Ty)
  seen : List Ty := []
  pending : List Ty

namespace Walk

/-- A walk starts with the methods and the super-interfaces of an interface. The last of them comes first. -/
def start (body : InterfaceBody Ty) : Walk where
  methods := body.methods
  pending := body.supers.reverse

/-- Take the next pending type. It is passed over if it was seen or no visit is left, and visited otherwise. -/
def step (f : Unfolding) (w : Walk) : Option Walk :=
  match w.pending with
  | [] => none
  | t :: rest =>
    if w.seen.contains t || decide (maxAliasChain < w.seen.length) then some { w with pending := rest }
    else some ⟨w.methods ++ f.contributed t, t :: w.seen, (f.supersOf t).reverse ++ rest⟩

/-- Some steps lead from one walk to another. -/
def Leads (f : Unfolding) : Walk → Walk → Prop :=
  Relation.ReflTransGen fun earlier later => step f earlier = some later

variable {w w' : Walk}

/-- `step` passes over the next pending type or visits it. -/
theorem step_cases (h : step f w = some w') :
    ∃ t rest, w.pending = t :: rest ∧
      (((w.seen.contains t = true ∨ maxAliasChain < w.seen.length) ∧ w' = { w with pending := rest }) ∨
        (w.seen.contains t = false ∧ w.seen.length ≤ maxAliasChain ∧
          w' = ⟨w.methods ++ f.contributed t, t :: w.seen, (f.supersOf t).reverse ++ rest⟩)) := by
  unfold step at h
  split at h
  · cases h
  · next t rest hpending =>
    refine ⟨t, rest, hpending, ?_⟩
    split at h
    · next hpass =>
      rw [Bool.or_eq_true, decide_eq_true_eq] at hpass
      exact .inl ⟨hpass, (Option.some.inj h).symm⟩
    · next hvisit =>
      rw [Bool.not_eq_true, Bool.or_eq_false_iff, decide_eq_false_iff_not, Nat.not_lt] at hvisit
      exact .inr ⟨hvisit.1, hvisit.2, (Option.some.inj h).symm⟩

theorem pending_eq_nil_of_step (h : step f w = none) : w.pending = [] := by
  unfold step at h
  split at h
  · assumption
  · split at h <;> cases h

/-- `step` is well-founded: a visit uses up one of the visits that are left, and passing over a type leaves fewer
pending types. -/
theorem step_wellFounded (f : Unfolding) : WellFounded fun later earlier => step f earlier = some later := by
  let left (w : Walk) : Nat × Nat := (maxAliasChain + 1 - w.seen.length, w.pending.length)
  refine Subrelation.wf ?_ (InvImage.wf left (wellFounded_lt.prod_lex wellFounded_lt))
  intro later earlier h
  obtain ⟨t, rest, hpending, ⟨-, rfl⟩ | ⟨-, hvisits, rfl⟩⟩ := step_cases h
  · refine .right _ ?_
    simp [hpending]
  · refine .left _ _ ?_
    simp only [List.length_cons]
    omega

/-! ## Where a walk ends -/

theorem inherited_of_contains (visits : Nat) {seen rest : List Ty} (h : seen.contains t = true) :
    f.inherited visits seen (t :: rest) = f.inherited visits seen rest := by
  cases visits with
  | zero => rfl
  | succ visits => rw [Unfolding.inherited, Unfolding.inherited, List.dropWhile_cons_of_pos h]

theorem inherited_of_not_contains (visits : Nat) {seen rest : List Ty} (h : seen.contains t = false) :
    f.inherited (visits + 1) seen (t :: rest) =
      f.contributed t ++ f.inherited visits (t :: seen) ((f.supersOf t).reverse ++ rest) := by
  rw [Unfolding.inherited, List.dropWhile_cons_of_neg (by simp [h]), Unfolding.contributed, Unfolding.supersOf]
  dsimp only
  cases (f.declared t).2.interface? with
  | none => rfl
  | some body => rfl

/-- A walk `Leads` to one without pending types that has the methods of `inherited`, after those that it had. -/
theorem leads_inherited (f : Unfolding) (w : Walk) {visits : Nat}
    (hvisits : w.seen.length + visits = maxAliasChain + 1) :
    ∃ last, Leads f w last ∧ last.pending = [] ∧ last.methods = w.methods ++ f.inherited visits w.seen w.pending := by
  induction w using (step_wellFounded f).induction generalizing visits with
  | _ w ih =>
    cases hstep : step f w with
    | none =>
      have hpending := pending_eq_nil_of_step hstep
      refine ⟨w, .refl, hpending, ?_⟩
      rw [hpending]
      cases visits <;> simp [Unfolding.inherited]
    | some next =>
      obtain ⟨t, rest, hpending, ⟨hpass, rfl⟩ | ⟨hnew, hleft, rfl⟩⟩ := step_cases hstep
      · obtain ⟨last, hleads, hlast, hmethods⟩ := ih _ hstep hvisits
        refine ⟨last, .head hstep hleads, hlast, ?_⟩
        rw [hmethods, hpending]
        rcases hpass with hseen | hnone
        · rw [inherited_of_contains visits hseen]
        · -- no visit is left, so nothing more is found
          obtain rfl : visits = 0 := by omega
          rfl
      · obtain ⟨visits, rfl⟩ : ∃ n, visits = n + 1 := ⟨visits - 1, by omega⟩
        have hvisits' : (t :: w.seen).length + visits = maxAliasChain + 1 := by
          rw [List.length_cons]
          omega
        obtain ⟨last, hleads, hlast, hmethods⟩ := ih _ hstep hvisits'
        refine ⟨last, .head hstep hleads, hlast, ?_⟩
        rw [hmethods, hpending, inherited_of_not_contains visits hnew, List.append_assoc]

/-! ## What a walk keeps -/

/-- The types that were visited are different super-interfaces, and the methods are the own ones of the interface and
those that the visited types contribute. The pending types are super-interfaces. -/
structure Sound (f : Unfolding) (body : InterfaceBody Ty) (w : Walk) : Prop where
  methods : w.methods = body.methods ++ w.seen.reverse.flatMap f.contributed
  distinct : (w.seen.map Ty.erase).Nodup
  seen : ∀ t ∈ w.seen, f.Inherits body t
  pending : ∀ t ∈ w.pending, f.Inherits body t

/-- A type was seen or is pending. -/
def Met (w : Walk) (t : Ty) : Prop :=
  w.seen.contains t = true ∨ t ∈ w.pending

/-- Each super-interface of the interface and of the visited types was seen or is pending. -/
structure Covers (f : Unfolding) (body : InterfaceBody Ty) (w : Walk) : Prop where
  direct : ∀ t ∈ body.supers, w.Met t
  indirect : ∀ t ∈ w.seen, ∀ u ∈ f.supersOf t, w.Met u

theorem Sound.start (f : Unfolding) (body : InterfaceBody Ty) : Sound f body (start body) where
  methods := (List.append_nil _).symm
  distinct := .nil
  seen _ ht := absurd ht List.not_mem_nil
  pending _ ht := .direct (List.mem_reverse.mp ht)

theorem Covers.start (f : Unfolding) (body : InterfaceBody Ty) : Covers f body (start body) where
  direct _ ht := .inr (List.mem_reverse.mpr ht)
  indirect _ ht := absurd ht List.not_mem_nil

theorem Sound.step (hw : w.Sound f body) (h : Walk.step f w = some w') : w'.Sound f body := by
  obtain ⟨t, rest, hpending, ⟨-, rfl⟩ | ⟨hnew, -, rfl⟩⟩ := step_cases h
  · refine ⟨hw.methods, hw.distinct, hw.seen, fun u hu => hw.pending u ?_⟩
    rw [hpending]
    exact List.mem_cons_of_mem t hu
  · have ht : f.Inherits body t := hw.pending t (by simp [hpending])
    constructor
    · simp [hw.methods]
    · exact Ty.nodup_cons_of_contains hnew hw.distinct
    · exact List.forall_mem_cons.mpr ⟨ht, hw.seen⟩
    · intro u hu
      rcases List.mem_append.mp hu with hsuper | hrest
      · exact ht.indirect (List.mem_reverse.mp hsuper)
      · exact hw.pending u (by simp [hpending, hrest])

/-- If `inheritedCount` is no more than may be visited, then only types in `seen` are passed over. -/
theorem Sound.contains_of_passed (hw : w.Sound f body)
    (hbound : f.inheritedCount body ≤ (maxAliasChain + 1 : Nat)) (ht : t ∈ w.pending)
    (hpass : w.seen.contains t = true ∨ maxAliasChain < w.seen.length) : w.seen.contains t = true := by
  refine hpass.elim id fun hnone => ?_
  by_contra hnew
  rw [Bool.not_eq_true] at hnew
  -- the type would be one super-interface too many
  have hlength : ((t :: w.seen).length : ℕ∞) ≤ (maxAliasChain + 1 : Nat) :=
    (Unfolding.length_le_inheritedCount (Ty.nodup_cons_of_contains hnew hw.distinct)
      (List.forall_mem_cons.mpr ⟨hw.pending t ht, hw.seen⟩)).trans hbound
  rw [Nat.cast_le, List.length_cons] at hlength
  omega

/-- `Met` is kept by `Walk.step`: the next type was seen if it is passed over, and is seen once it is visited. -/
theorem Met.step (hu : w.Met u) (hw : w.Sound f body) (hbound : f.inheritedCount body ≤ (maxAliasChain + 1 : Nat))
    (h : Walk.step f w = some w') : w'.Met u := by
  obtain ⟨t, rest, hpending, ⟨hpass, rfl⟩ | ⟨-, -, rfl⟩⟩ := step_cases h
  all_goals
    rw [Met, hpending, List.mem_cons] at hu
    rcases hu with hu | rfl | hu
  · exact .inl hu
  · exact .inl (hw.contains_of_passed hbound (by simp [hpending]) hpass)
  · exact .inr hu
  · exact .inl (by simp only [List.contains_cons, hu, Bool.or_true])
  · exact .inl (Ty.contains_iff_erase_mem.mpr (by simp))
  · exact .inr (List.mem_append_right _ hu)

theorem Covers.step (hc : w.Covers f body) (hw : w.Sound f body)
    (hbound : f.inheritedCount body ≤ (maxAliasChain + 1 : Nat)) (h : Walk.step f w = some w') :
    w'.Covers f body := by
  have hkeep {u : Ty} (hu : w.Met u) : w'.Met u := hu.step hw hbound h
  refine ⟨fun u hu => hkeep (hc.direct u hu), ?_⟩
  obtain ⟨t, rest, -, ⟨-, rfl⟩ | ⟨-, -, rfl⟩⟩ := step_cases h
  · exact fun s hs u hu => hkeep (hc.indirect s hs u hu)
  · refine List.forall_mem_cons.mpr ⟨fun u hu => ?_, fun s hs u hu => hkeep (hc.indirect s hs u hu)⟩
    exact .inr (List.mem_append_left _ (List.mem_reverse.mpr hu))

theorem Sound.leads (hw : w.Sound f body) (h : Leads f w w') : w'.Sound f body := by
  induction h with
  | refl => exact hw
  | tail _ hstep ih => exact ih.step hstep

theorem Covers.leads (hc : w.Covers f body) (hw : w.Sound f body)
    (hbound : f.inheritedCount body ≤ (maxAliasChain + 1 : Nat)) (h : Leads f w w') : w'.Covers f body := by
  induction h with
  | refl => exact hc
  | tail hleads hstep ih => exact ih.step (hw.leads hleads) hbound hstep

/-- When no type is pending any more, a walk that `Covers` an interface has seen all that it `Inherits`. -/
theorem Covers.contains (hc : w.Covers f body) (hf : f.Respects) (hend : w.pending = []) (h : f.Inherits body t) :
    w.seen.contains t = true := by
  have hseen {u : Ty} (hu : w.Met u) : w.seen.contains u = true := by
    simpa [Met, hend] using hu
  induction h with
  | direct ht => exact hseen (hc.direct _ ht)
  | @indirect t u _ hu ih =>
    -- a type that is the same was visited, and its super-interfaces are the same
    obtain ⟨s, hs, hsame⟩ := List.mem_map.mp (Ty.contains_iff_erase_mem.mp ih)
    have hsupers : u.erase ∈ (f.supersOf s).map Ty.erase := by
      rw [Unfolding.supersOf_congr hf hsame]
      exact List.mem_map_of_mem hu
    obtain ⟨u', hu', hsame'⟩ := List.mem_map.mp hsupers
    rw [Ty.contains_iff_erase_mem, ← hsame', ← Ty.contains_iff_erase_mem]
    exact hseen (hc.indirect s hs u' hu')

end Walk

/-! ## The methods of an interface -/

/-- A resolver that `Answers` as an unfolding finds its `interfaceMethods`. -/
theorem Resolver.Answers.interfaceMethods {resolve : Resolver σ} (h : resolve.Answers f) (body : InterfaceBody Ty)
    (s : σ) : ∃ s', (resolve.interfaceMethods body).run s = .ok (f.interfaceMethods body, s') := by
  have hfollows : resolve.Follows f := by
    intro r s v s' hrun
    obtain ⟨s'', hanswer⟩ := h r s
    exact (Prod.mk.inj (Except.ok.inj (hrun.symm.trans hanswer))).1
  have htotal : resolve.TotalOn (fun _ => True) (fun _ => True) (fun _ => True) := by
    refine ⟨fun {t r} _ _ s _ => ?_, fun _ _ _ _ => trivial, fun _ _ _ _ => trivial⟩
    obtain ⟨s', hanswer⟩ := h r s
    exact ⟨f r, s', hanswer, trivial, trivial⟩
  have hfound : (resolve.interfaceMethods body).TotalUnder (fun _ => True) fun found => ∀ m ∈ found, True :=
    Resolver.interfaceMethods_total htotal.walks (fun _ _ => trivial) (fun _ _ => trivial)
  obtain ⟨methods, s', hrun, -, -, rfl⟩ := hfound.and (hfollows.interfaceMethods body) s trivial
  exact ⟨s', hrun⟩

/-- `interfaceMethods` are complete, own and inherited ones. `Walk.step` is well-founded, whatever named types stand
for. A resolver that `Answers` as some unfolding finds the methods that the walk from the interface ends with: its own,
and after them those that the types contribute which the walk visits. These are super-interfaces. If there are at most
65 different ones, and named types that are the same stand for types that are, then every super-interface is visited
exactly once. -/
theorem Unfolding.interfaceMethods_complete (f : Unfolding) (body : InterfaceBody Ty) :
    (WellFounded fun later earlier => Walk.step f earlier = some later) ∧
      ∃ (last : Walk) (visited : List Ty), Walk.Leads f (.start body) last ∧ last.pending = [] ∧
        last.methods = body.methods ++ visited.flatMap f.contributed ∧
        (∀ (σ : Type) (resolve : Resolver σ), resolve.Answers f →
          ∀ s, ∃ s', (resolve.interfaceMethods body).run s = .ok (last.methods, s')) ∧
        (∀ t ∈ visited, f.Inherits body t) ∧
        (f.Respects → f.inheritedCount body ≤ 65 → ∀ t, f.Inherits body t → visited.countP (·.same t) = 1) := by
  refine ⟨Walk.step_wellFounded f, ?_⟩
  obtain ⟨last, hleads, hend, hmethods⟩ := Walk.leads_inherited f (.start body) (Nat.zero_add _)
  have hsound := (Walk.Sound.start f body).leads hleads
  refine ⟨last, last.seen.reverse, hleads, hend, hsound.methods, fun σ resolve hresolve s => ?_, fun t ht => ?_, ?_⟩
  · obtain ⟨s', hrun⟩ := hresolve.interfaceMethods body s
    refine ⟨s', ?_⟩
    rw [hrun, hmethods]
    rfl
  · exact hsound.seen t (List.mem_reverse.mp ht)
  · intro hf hbound t ht
    have hcovers := (Walk.Covers.start f body).leads (Walk.Sound.start f body) hbound hleads
    rw [List.countP_reverse]
    exact Ty.countP_same_eq_one hsound.distinct (Ty.contains_iff_erase_mem.mp (hcovers.contains hf hend ht))

/-! ## Streams -/

namespace Streams

/-- An interface with one method without parameters. -/
def interface (method : String) (supers : List Ty) : Ty :=
  .of (.interface { methods := [{ names := ⟨method, []⟩, signature := { result := .void } }], supers })

/-- The names of four interfaces. -/
def names : List Ty :=
  [.reference 0 "Stream" [], .reference 1 "Source" [], .reference 2 "Sink" [], .reference 3 "Resource" []]

/-- A stream is a source and a sink. Both are resources, and a sink is a stream again. -/
def unfolding : Unfolding :=
  fun r => ([interface "copy" [.reference 1 "Source" [], .reference 2 "Sink" []],
    interface "read" [.reference 3 "Resource" []],
    interface "write" [.reference 3 "Resource" [], .reference 0 "Stream" []]][r.decl]?).getD (interface "close" [])

theorem unfolding_respects : unfolding.Respects := by
  intro r r' h
  simp only [Ty.same_eq, Ty.of, Shape.agree, Bool.and_eq_true, beq_iff_eq] at h
  rw [unfolding, unfolding, h.1.1]
  exact Ty.same_refl _

/-- The interface of streams. -/
def stream : InterfaceBody Ty :=
  ((unfolding ⟨0, "Stream", []⟩).interface?).getD {}

/-- The super-interfaces of `stream` are among `names`, since those of each of the four are. -/
theorem mem_names {t : Ty} (h : unfolding.Inherits stream t) : t ∈ names := by
  have hstream : unfolding.supersOf (.reference 0 "Stream" []) =
      [.reference 1 "Source" [], .reference 2 "Sink" []] := rfl
  have hsource : unfolding.supersOf (.reference 1 "Source" []) = [.reference 3 "Resource" []] := rfl
  have hsink : unfolding.supersOf (.reference 2 "Sink" []) =
      [.reference 3 "Resource" [], .reference 0 "Stream" []] := rfl
  have hresource : unfolding.supersOf (.reference 3 "Resource" []) = [] := rfl
  have hclosed : ∀ t ∈ names, ∀ u ∈ unfolding.supersOf t, u ∈ names := by
    simp [names, hstream, hsource, hsink, hresource]
  induction h with
  | @direct t ht =>
    have hsupers : t ∈ unfolding.supersOf (.reference 0 "Stream" []) := ht
    exact hclosed _ (by simp [names]) t hsupers
  | indirect _ hu ih => exact hclosed _ ih _ hu

/-- `stream` inherits what sources, sinks and resources can do, each once although a resource is reached on two ways. It
also inherits from itself, since a sink is a stream. -/
theorem methods_complete :
    ∃ (visited : List Ty) (methods : List (Method Ty)), unfolding.Respects ∧ unfolding.inheritedCount stream ≤ 65 ∧
      (unfolding.resolver.interfaceMethods stream).run () = .ok (methods, ()) ∧
      methods.map (·.names.primary) = ["copy", "write", "copy", "read", "close"] ∧
      methods = stream.methods ++ visited.flatMap unfolding.contributed ∧
      ∀ t, unfolding.Inherits stream t → visited.countP (·.same t) = 1 := by
  have hcount : unfolding.inheritedCount stream ≤ 65 :=
    (Unfolding.inheritedCount_le_length fun _ => mem_names).trans (by decide)
  obtain ⟨-, last, visited, -, -, hmethods, hruns, -, hvisited⟩ :=
    Unfolding.interfaceMethods_complete unfolding stream
  obtain ⟨_, hrun⟩ := hruns Unit unfolding.resolver (fun r s => ⟨s, rfl⟩) ()
  have hnames : (unfolding.interfaceMethods stream).map (·.names.primary) =
      ["copy", "write", "copy", "read", "close"] := by decide +kernel
  have hlast : unfolding.interfaceMethods stream = last.methods := by
    rw [Unfolding.resolver_interfaceMethods] at hrun
    exact (Prod.mk.inj (Except.ok.inj hrun)).1
  refine ⟨visited, last.methods, unfolding_respects, hcount, hrun, ?_, hmethods, hvisited unfolding_respects hcount⟩
  rw [← hlast]
  exact hnames

end Streams

end Ascribe
