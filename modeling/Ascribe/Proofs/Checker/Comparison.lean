import Ascribe.Proofs.Assignability.Termination
import Ascribe.Proofs.Checker.Lookup
import Ascribe.Proofs.Checker.Totality
import Ascribe.Proofs.Tree.WellFormed

/-!
# When a checker comes to a verdict

A checker compares types by its answers to what named types stand for. Among ranked types with finitely many texts,
which these answers do not lead out of, it comes to a verdict (`Checker.compare_ends`). The condition can be tested on
a checker that has resolved the named types in question (`Checker.confines_of_kept`).

Ranks are needed. If `type Left = interface { next: fn() -> interface : Left {} }`, the unnamed interface inherits a
method that leads back to it, and likewise for a second declaration of this kind. A comparison of the two goes through
these interfaces forever: no named type is met on the way, so nothing is ever assumed (`ladders_diverge`). Finitely many
texts are needed as well, since what a recursive generic type stands for may hold ever larger instances of it.

## Key results

- `Checker.compare_ends`: a comparison among ranked types with finitely many texts comes to a verdict
- `Checker.confines_of_kept`: a test for this on a checker that has resolved the named types
- `compare_diverges`: a comparison of interfaces that inherit from what they are parts of does not come to an end
-/

namespace Ascribe

variable {p : Tree} {c c' : Checker}

/-! ## Comparisons that come to an end -/

/-- The checkers that a checker becomes by resolving named types that `W` allows, going at most so deep for each. -/
inductive Checker.Resolving (p : Tree) (depth : Nat) (W : Ty → Prop) (c : Checker) : Checker → Prop where
  | start : Resolving p depth W c c
  | step {c₁ c₂ : Checker} {t u : Ty} {r : Reference Ty} (before : Resolving p depth W c c₁) (named : t.shape = .ref r)
    (allowed : W t) (run : ((answers p depth 0).resolve r).run c₁ = .ok (u, c₂)) : Resolving p depth W c c₂

/-- The `comparer` of `answers` does the same as one with fewer answers about named types, unless that one is cut short.
-/
theorem answers_deepens_comparer (p : Tree) (depth rounds : Nat) :
    (answers p (depth + rounds) 0).comparer.InStep (.deepens Checker)
      (.ofResolver (answers p depth 0).resolve rounds) := by
  induction rounds with
  | zero => exact ⟨fun _ => Lockstep.deepens_refl _, fun _ _ _ => Lockstep.deepens_exhausted _⟩
  | succ rounds ih => exact ⟨(answers_deepens p (Nat.le_add_right depth (rounds + 1)) 0).resolve, ih.step⟩

/-- `compare` comes to a verdict, after any questions, if the named types that it may meet can be resolved, their texts
are finitely many and they can be ranked. A part ranks below its type, and an interface no lower than those it is
declared below. Every search that goes deep enough comes to this verdict, the one of a host among them. -/
theorem Checker.compare_ends {W : Ty → Prop} {rank : Ty → Nat} {depth top : Nat} {texts : Finset String}
    (hconfines : (answers p depth 0).resolve.Confines (c.Resolving p depth W) W rank)
    (htexts : ∀ t, W t → t.text ∈ texts) (htop : ∀ t, W t → rank t ≤ top) {a e : Ty} (ha : W a) (he : W e) :
    ∃ v c', c.Resolving p depth W c' ∧
      (∀ deeper, depth + comparisonDepth texts.card top ≤ deeper →
        ((answers p deeper 0).compare [] a e).run c = .ok (v, c')) ∧
      (depth + comparisonDepth texts.card top ≤ questionDepth p c.settings → (compare p a e).run c = .ok (v, c')) := by
  have htotal := compareWithin_total hconfines htexts htop (Nat.le_refl _) [] ha he
  obtain ⟨v, c', hrun, hc', -⟩ := htotal c .start
  have hdeeper : ∀ deeper, depth + comparisonDepth texts.card top ≤ deeper →
      ((answers p deeper 0).compare [] a e).run c = .ok (v, c') := by
    intro deeper hdepth
    -- neither bound cuts the comparison short
    have henough : ((answers p (depth + comparisonDepth texts.card top) 0).compare [] a e).run c = .ok (v, c') := by
      have hsame := (answers_deepens_comparer p depth (comparisonDepth texts.card top)).compare [] a e c
      rw [Comparer.ofResolver, hrun] at hsame
      exact hsame.resolve_left (by simp)
    have hsame := (answers_deepens p hdepth 0).compare [] a e c
    rw [henough] at hsame
    exact hsame.resolve_left (by simp)
  refine ⟨v, c', hc', hdeeper, fun hdepth => ?_⟩
  rw [compare, run_queries_bind]
  exact hdeeper _ hdepth

/-! ## A test on a checker that has resolved the named types -/

/-- A type and everything it is made of, at any depth. -/
def Ty.subterms (t : Ty) : List Ty :=
  t.fold fun t parts => t :: parts.parts.flatten

theorem Ty.mem_subterms {t u : Ty} : u ∈ t.subterms ↔ u = t ∨ ∃ part ∈ t.shape.parts, u ∈ part.subterms := by
  rw [subterms, fold_eq, Shape.parts_map, List.mem_cons, ← List.flatMap_def, List.mem_flatMap]
  rfl

/-- The parts of a member of `subterms` are members. -/
theorem Ty.mem_subterms_of_part {t u part : Ty} (hu : u ∈ t.subterms) (hpart : part ∈ u.shape.parts) :
    part ∈ t.subterms := by
  induction t using induction_on_parts with
  | step t ih =>
    rw [mem_subterms] at hu ⊢
    rcases hu with rfl | ⟨v, hv, hu⟩
    · exact .inr ⟨part, hpart, mem_subterms.mpr (.inl rfl)⟩
    · exact .inr ⟨v, hv, ih v hv hu⟩

namespace Checker

/-- The types that a comparison of two types may meet if only kept named types are resolved: the types, what is kept,
and what these are made of. -/
def compared (c : Checker) (a e : Ty) : List Ty :=
  (a :: e :: c.resolved.values).flatMap Ty.subterms

/-- Whether a type is in place: its parts rank below it, it is kept if it is named, and if it is an interface, those it
is declared below rank no higher. -/
def isPlaced (c : Checker) (rank : Ty → Nat) (t : Ty) : Bool :=
  t.shape.parts.all (fun part => rank part < rank t) &&
    match t.shape with
    | .ref r => c.resolved.contains r.key
    | .interface body => body.supers.all fun u =>
      (c.kept.declared u).2.interface?.isNone || rank (c.kept.declared u).2 ≤ rank t
    | _ => true

variable {a e : Ty} {rank : Ty → Nat}

theorem mem_compared_of_kept {key : ReferenceKey} {t : Ty} (h : c.resolved.get? key = some t) : t ∈ c.compared a e := by
  have hvalue : t ∈ c.resolved.values := by
    obtain ⟨l₁, l₂, hentries, -⟩ := List.lookup_eq_some_iff.mp h
    simp [Table.values, hentries]
  apply List.mem_flatMap.mpr
  exact ⟨t, by simp [hvalue], Ty.mem_subterms.mpr (.inl rfl)⟩

theorem mem_compared_of_part {t part : Ty} (ht : t ∈ c.compared a e) (hpart : part ∈ t.shape.parts) :
    part ∈ c.compared a e := by
  obtain ⟨root, hroot, ht⟩ := List.mem_flatMap.mp ht
  exact List.mem_flatMap.mpr ⟨root, hroot, Ty.mem_subterms_of_part ht hpart⟩

section Placed

variable (h : ∀ t ∈ c.compared a e, c.isPlaced rank t = true)

include h

theorem kept_of_isPlaced {t : Ty} {r : Reference Ty} (hr : t.shape = .ref r) (ht : t ∈ c.compared a e) :
    c.resolved.get? r.key = some (c.kept r) ∧ c.kept r ∈ c.compared a e := by
  have hplaced := h t ht
  simp only [isPlaced, hr, Bool.and_eq_true, Table.contains, Option.isSome_iff_exists] at hplaced
  obtain ⟨u, hu⟩ := hplaced.2
  have hkept : c.kept r = u := by rw [kept, hu, Option.getD_some]
  rw [hkept]
  exact ⟨hu, mem_compared_of_kept hu⟩

/-- `follow` looks named types up in `kept` where every one of them is kept. -/
theorem follow_of_isPlaced (depth steps : Nat) (decl : Option NodeId) {t : Ty} (ht : t ∈ c.compared a e) :
    ((answers p (depth + 1) 0).resolve.follow steps decl t).run c = .ok (c.kept.follow steps decl t, c) := by
  induction steps generalizing decl t with
  | zero => rfl
  | succ steps ih =>
    rw [Resolver.follow, Unfolding.follow]
    cases hr : t.reference? with
    | none => rfl
    | some r =>
      obtain ⟨hkept, hmem⟩ := kept_of_isPlaced h (Ty.reference?_eq_some.mp hr) ht
      apply (Search.run_bind_of_ok (Typing.resolve_run_known hkept)).trans
      dsimp only
      by_cases hself : (c.kept r == t) = true
      · rw [if_pos hself, if_pos hself]
        rfl
      · rw [if_neg hself, if_neg hself]
        exact ih _ hmem

/-- `Confines` holds if everything that a comparison may meet, `compared`, is in place. -/
theorem confines_of_kept (p : Tree) (depth : Nat) :
    (answers p (depth + 1) 0).resolve.Confines (c.Resolving p (depth + 1) (· ∈ c.compared a e)) (· ∈ c.compared a e)
      rank := by
  have hresolve {t : Ty} {r : Reference Ty} (hr : t.shape = .ref r) (ht : t ∈ c.compared a e) :
      ((answers p (depth + 1) 0).resolve r).run c = .ok (c.kept r, c) :=
    Typing.resolve_run_known (kept_of_isPlaced h hr ht).1
  -- nothing new is resolved, so the checker stays as it is
  have hstays {c' : Checker} (hc' : c.Resolving p (depth + 1) (· ∈ c.compared a e) c') : c' = c := by
    induction hc' with
    | start => rfl
    | step _ hr ht hrun ih =>
      subst ih
      exact (Prod.mk.inj (Except.ok.inj (hrun.symm.trans (hresolve hr ht)))).2
  constructor
  · intro t ht part hpart
    have hplaced := h t ht
    simp only [isPlaced, Bool.and_eq_true, List.all_eq_true, decide_eq_true_eq] at hplaced
    exact ⟨mem_compared_of_part ht hpart, hplaced.1 part hpart⟩
  · intro t r hr ht c' hc'
    obtain rfl := hstays hc'
    exact ⟨_, _, hresolve hr ht, .start, (kept_of_isPlaced h hr ht).2⟩
  · intro t body hbody ht u hu c' v c'' hc' hrun
    obtain rfl := hstays hc'
    have hmem : u ∈ c'.compared a e := mem_compared_of_part ht (hbody ▸ List.mem_append_right _ hu)
    rw [Resolver.target, ← bind_pure_comp] at hrun
    obtain ⟨found, c₁, hfollow, hpure⟩ := Search.run_bind_eq_ok.mp hrun
    obtain ⟨rfl, rfl⟩ := Search.run_pure_eq_ok.mp hpure
    obtain ⟨rfl, rfl⟩ := Prod.mk.inj (Except.ok.inj (hfollow.symm.trans (follow_of_isPlaced h depth _ _ hmem)))
    refine ⟨.start, fun body' hbody' => ?_⟩
    have hplaced := h t ht
    simp only [isPlaced, hbody, Bool.and_eq_true, List.all_eq_true, Bool.or_eq_true, decide_eq_true_eq] at hplaced
    apply (hplaced.2 u hu).resolve_left
    have hinterface : (c''.kept.declared u).2.interface? = some body' := by
      unfold Ty.interface?
      rw [Unfolding.declared, hbody']
    simp [hinterface]

end Placed

end Checker

/-- Interfaces `type Round = interface : Shape { copy: fn() -> Round }` and
`type Shape = interface { area: fn() -> u32, name: fn() -> string, copy: fn() -> Shape }`. -/
def outlines : Tree where
  nodes := #[
    { form := .typeDecl { name := "Round", definition := 4 }, parent := some 13 },
    { form := .reference { name := "Round", target := some 0 } [], parent := some 2 },
    { form := .interfaceMethod { names := ["copy"], result := some 1 }, parent := some 4 },
    { form := .reference { name := "Shape", target := some 5 } [], parent := some 4 },
    { form := .interfaceType [2] [3], parent := some 0 },
    { form := .typeDecl { name := "Shape", definition := 12 }, parent := some 13 },
    { form := .primitive .u32, parent := some 7 },
    { form := .interfaceMethod { names := ["area"], result := some 6 }, parent := some 12 },
    { form := .primitive .string, parent := some 9 },
    { form := .interfaceMethod { names := ["name"], result := some 8 }, parent := some 12 },
    { form := .reference { name := "Shape", target := some 5 } [], parent := some 11 },
    { form := .interfaceMethod { names := ["copy"], result := some 10 }, parent := some 12 },
    { form := .interfaceType [7, 9, 11] [], parent := some 5 },
    { form := .compilationUnit [0, 5] }]

/-- An interface that is declared below others ranks above all types that `outlines` holds; otherwise types rank by
their size. -/
def outlineRank (t : Ty) : Nat :=
  if t.interface?.any fun body => !body.supers.isEmpty then 10 else t.size

/-- Once both interfaces have been resolved, comparing `Round` with `Shape` comes to a verdict. The interface that
`Round` stands for is smaller than the one it is declared below. -/
theorem outlines_compared :
    ∃ c, (answers outlines 1 0).resolve.Confines
        (c.Resolving outlines 1 (· ∈ c.compared (.reference 0 "Round" []) (.reference 5 "Shape" [])))
        (· ∈ c.compared (.reference 0 "Round" []) (.reference 5 "Shape" [])) outlineRank ∧
      ∃ v c', (Checker.compare outlines (.reference 0 "Round" []) (.reference 5 "Shape" [])).run c = .ok (v, c') := by
  let round : Ty := .reference 0 "Round" []
  let shape : Ty := .reference 5 "Shape" []
  let session : Infer Bool := do
    discard (Checker.resolve outlines round)
    discard (Checker.resolve outlines shape)
    let c ← get
    let types := c.compared round shape
    return types.all (c.isPlaced outlineRank) && types.all (outlineRank · ≤ 10) && types.length ≤ 20
  obtain ⟨found, c, hsession, hfound⟩ := Search.exists_run_of_any (x := session) (s := {}) (P := id) (by decide +kernel)
  obtain ⟨_, c₁, hround, hsession⟩ := Search.run_bind_eq_ok.mp hsession
  obtain ⟨_, c₂, hshape, hsession⟩ := Search.run_bind_eq_ok.mp hsession
  obtain ⟨rfl, rfl⟩ := Prod.mk.inj (Except.ok.inj hsession)
  simp only [id, Bool.and_eq_true, List.all_eq_true, decide_eq_true_eq] at hfound
  obtain ⟨⟨hplaced, htop⟩, hlength⟩ := hfound
  have hconfines := Checker.confines_of_kept hplaced outlines 0
  refine ⟨c₂, hconfines, ?_⟩
  let texts := ((c₂.compared round shape).map Ty.text).toFinset
  have htexts : ∀ t, t ∈ c₂.compared round shape → t.text ∈ texts :=
    fun t ht => List.mem_toFinset.mpr (List.mem_map_of_mem ht)
  have hcard : texts.card ≤ 20 := by
    apply (List.toFinset_card_le _).trans
    rw [List.length_map]
    exact hlength
  have hmem {t : Ty} (ht : t ∈ round :: shape :: c₂.resolved.values) : t ∈ c₂.compared round shape :=
    List.mem_flatMap.mpr ⟨t, ht, Ty.mem_subterms.mpr (.inl rfl)⟩
  have ha : round ∈ c₂.compared round shape := hmem (by simp)
  have he : shape ∈ c₂.compared round shape := hmem (by simp)
  obtain ⟨v, c', -, -, hcompare⟩ := Checker.compare_ends hconfines htexts htop ha he
  refine ⟨v, c', hcompare ?_⟩
  have hpairs := Nat.mul_le_mul hcard hcard
  unfold comparisonDepth Checker.questionDepth depthLimit
  omega

/-! ## A comparison that does not come to an end -/

/-- Whether a type is an interface without methods of its own that is declared below a type named by a key. -/
def Ty.inheritsFrom (key : ReferenceKey) (t : Ty) : Bool :=
  match t.shape with
  | .interface ⟨[], [u]⟩ => u.reference?.any (·.key == key)
  | _ => false

/-- Whether a type is an interface with one method `next` without parameters, which gives an interface declared below a
type named by a key. -/
def Ty.leadsTo (key : ReferenceKey) (t : Ty) : Bool :=
  match t.shape with
  | .interface ⟨[m], []⟩ =>
    m.names == ⟨"next", []⟩ && m.signature.params.isEmpty && m.signature.kind == .plain &&
      m.signature.result.inheritsFrom key
  | _ => false

theorem Ty.exists_of_inheritsFrom {key : ReferenceKey} {t : Ty} (h : t.inheritsFrom key = true) :
    ∃ u r, t.shape = .interface ⟨[], [u]⟩ ∧ u.reference? = some r ∧ r.key = key := by
  unfold inheritsFrom at h
  split at h
  · next u hshape =>
    obtain ⟨r, hr, hkey⟩ := (Option.any_eq_true _ _).mp h
    exact ⟨u, r, hshape, hr, beq_iff_eq.mp hkey⟩
  · cases h

theorem Ty.exists_of_leadsTo {key : ReferenceKey} {t : Ty} (h : t.leadsTo key = true) :
    ∃ m : Method Ty, t.shape = .interface ⟨[m], []⟩ ∧ m.names = ⟨"next", []⟩ ∧ m.signature.params = [] ∧
      m.signature.kind = .plain ∧ m.signature.result.inheritsFrom key = true := by
  unfold leadsTo at h
  split at h
  · next m hshape =>
    simp only [Bool.and_eq_true, beq_iff_eq, List.isEmpty_iff] at h
    exact ⟨m, hshape, h.1.1.1, h.1.1.2, h.1.2, h.2⟩
  · cases h

/-- Interfaces that `inheritsFrom` different keys are not the same. -/
theorem Ty.same_of_inheritsFrom {key key' : ReferenceKey} (hkey : key ≠ key') {a e : Ty}
    (ha : a.inheritsFrom key = true) (he : e.inheritsFrom key' = true) : a.same e = false := by
  obtain ⟨u, r, hshape, hr, rfl⟩ := exists_of_inheritsFrom ha
  obtain ⟨u', r', hshape', hr', rfl⟩ := exists_of_inheritsFrom he
  apply Bool.eq_false_of_not_eq_true
  intro hsame
  apply hkey
  apply Reference.key_congr
  rw [same_iff_erase_eq, erase_eq, erase_eq e, hshape, hshape'] at hsame
  have hsupers : u.erase = u'.erase := by
    simpa [Ty.of, Shape.erasedWith_interface] using congrArg Ty.shape hsame
  rw [same_iff_erase_eq, erase_eq, erase_eq (.of (.ref r'))]
  rw [erase_eq, erase_eq u', reference?_eq_some.mp hr, reference?_eq_some.mp hr'] at hsupers
  exact hsupers

theorem Ty.same_of_leadsTo {key key' : ReferenceKey} (hkey : key ≠ key') {a e : Ty} (ha : a.leadsTo key = true)
    (he : e.leadsTo key' = true) : a.same e = false := by
  obtain ⟨m, hshape, -, -, -, hresult⟩ := exists_of_leadsTo ha
  obtain ⟨m', hshape', -, -, -, hresult'⟩ := exists_of_leadsTo he
  apply Bool.eq_false_of_not_eq_true
  intro hsame
  rw [same_iff_erase_eq, erase_eq, erase_eq e, hshape, hshape'] at hsame
  have hmethods : m.erase = m'.erase := by
    simpa [Ty.of, Shape.erasedWith_interface] using congrArg Ty.shape hsame
  have hresults : m.signature.result.same m'.signature.result = true := by
    rw [same_iff_erase_eq]
    exact congrArg (fun m => m.signature.result) hmethods
  rw [same_of_inheritsFrom hkey hresult hresult'] at hresults
  cases hresults

/-! ### One step between interfaces -/

namespace Comparer

variable {σ : Type} {cmp : Comparer σ} {assumed : Assumptions} {s : σ} {fault : Fault}

/-- `signature` compares two methods without parameters by their results. -/
theorem signature_run_fault {a e : Signature Ty} (ha : a.params = []) (he : e.params = []) (hkind : a.kind = e.kind)
    (hresult : (cmp.compare assumed a.result e.result).run s = .error fault) :
    (cmp.signature assumed a e).run s = .error fault := by
  unfold signature
  rw [ha, he, hkind]
  simp only [ne_eq, not_true_eq_false, decide_false, Bool.or_self, Bool.false_eq_true, if_false, List.zip_nil_left]
  have hnone : (pure true : Search σ Bool).run s = .ok (true, s) := rfl
  apply (Search.run_bind_of_ok hnone).trans
  show (Verdict.holds <$> cmp.compare assumed a.result e.result).run s = _
  rw [← bind_pure_comp]
  exact Search.run_bind_of_error hresult

/-- `step` compares two interfaces that are not the same by their `interfaceMethods`. -/
theorem step_of_interfaces {a e : Ty} {A E : InterfaceBody Ty} (ha : a.shape = .interface A)
    (he : e.shape = .interface E) (hdiffer : a.same e = false) :
    cmp.step assumed a e = (do cmp.conforms assumed (← cmp.resolve.interfaceMethods A) E) := by
  have hplain : (a.isNever || a.isError || e.isError || e.isAny) = false := by
    simp [Ty.isNever, Ty.isError, Ty.isAny, Ty.isPrimitive, Ty.primitive?, Ty.problem?, ha, he]
  rw [step, Ty.beq_eq_same, hdiffer, hplain, ha, he]
  simp only [Bool.false_eq_true, if_false]
  rw [general, Ty.reference?, Ty.reference?, ha, he]
  simp only [Option.isNone_none, Bool.and_self, if_true]
  rw [structural, ha, he]

/-- `step` goes on with the results if both interfaces have one method, of the same name and without parameters. -/
theorem step_run_fault_of_results {a e : Ty} {A E : InterfaceBody Ty} {m m' : Method Ty}
    (ha : a.shape = .interface A) (he : e.shape = .interface E) (hdiffer : a.same e = false)
    (hA : (cmp.resolve.interfaceMethods A).run s = .ok ([m], s))
    (hE : (cmp.resolve.interfaceMethods E).run s = .ok ([m'], s)) (hnames : m.names.overlaps m'.names = true)
    (hsignature : (cmp.signature assumed m.signature m'.signature).run s = .error fault) :
    (cmp.step assumed a e).run s = .error fault := by
  rw [step_of_interfaces ha he hdiffer]
  apply (Search.run_bind_of_ok hA).trans
  apply (Search.run_bind_of_ok hE).trans
  rw [every]
  apply Search.run_bind_of_error
  apply Search.run_bind_of_error
  rw [List.anyM, hnames]
  exact Search.run_bind_of_error hsignature

end Comparer

/-- `declared` follows a named type that stands for an interface in one step. -/
theorem Resolver.declared_run {σ : Type} {resolve : Resolver σ} {s s₁ : σ} {u t : Ty} {r : Reference Ty}
    {body : InterfaceBody Ty} (hu : u.reference? = some r) (ht : t.shape = .interface body)
    (hresolve : (resolve r).run s = .ok (t, s₁)) : (resolve.declared u).run s = .ok ((some r.decl, t), s₁) := by
  have hunnamed : t.reference? = none := by simp [Ty.reference?, ht]
  have hother : (t == u) = false := by
    rw [Ty.beq_eq_same]
    apply Bool.eq_false_of_not_eq_true
    intro hsame
    have href := congrArg Ty.reference? ((Ty.same_iff_erase_eq t u).mp hsame)
    rw [Ty.reference?_erase, Ty.reference?_erase, hunnamed, hu] at href
    cases href
  rw [declared, maxAliasChain, follow, hu]
  apply (Search.run_bind_of_ok hresolve).trans
  rw [hother, follow, hunnamed]
  rfl

/-- `interfaceMethods` of an interface without methods of its own are those of the interface it is declared below. -/
theorem Resolver.interfaceMethods_of_super {σ : Type} {resolve : Resolver σ} {s : σ} {u t : Ty} {r : Reference Ty}
    {m : Method Ty} (hu : u.reference? = some r) (ht : t.shape = .interface ⟨[m], []⟩)
    (hresolve : (resolve r).run s = .ok (t, s)) : (resolve.interfaceMethods ⟨[], [u]⟩).run s = .ok ([m], s) := by
  have htarget : (resolve.target u).run s = .ok (t, s) := by
    rw [target, ← bind_pure_comp]
    exact Search.run_bind_of_ok (declared_run hu ht hresolve)
  have hinherited : (resolve.inherited (maxAliasChain + 1) [] [u]).run s = .ok ([m], s) := by
    rw [inherited]
    apply (Search.run_bind_of_ok htarget).trans
    rw [ht]
    rfl
  exact Search.run_bind_of_ok hinherited

theorem Resolver.interfaceMethods_run_fault {σ : Type} {resolve : Resolver σ} {s : σ} {u : Ty} {r : Reference Ty}
    {fault : Fault} (hu : u.reference? = some r) (hresolve : (resolve r).run s = .error fault) :
    (resolve.interfaceMethods ⟨[], [u]⟩).run s = .error fault := by
  have htarget : (resolve.target u).run s = .error fault := by
    rw [target, declared, ← bind_pure_comp, maxAliasChain, follow, hu]
    exact Search.run_bind_of_error (Search.run_bind_of_error hresolve)
  apply Search.run_bind_of_error
  rw [inherited]
  exact Search.run_bind_of_error htarget

/-- `step` on two declarations that stand for interfaces which are not the same goes on with these. -/
theorem Comparer.step_run_fault_of_declared {σ : Type} {cmp : Comparer σ} {s s₁ s₂ : σ} {fault : Fault} {a e t t' : Ty}
    {r r' : Reference Ty} {A E : InterfaceBody Ty} (ha : a.shape = .ref r) (he : e.shape = .ref r')
    (hdecl : r.decl ≠ r'.decl) (ht : t.shape = .interface A) (ht' : t'.shape = .interface E)
    (hdiffer : t.same t' = false) (hresolve : (cmp.resolve r).run s = .ok (t, s₁))
    (hresolve' : (cmp.resolve r').run s₁ = .ok (t', s₂))
    (hcompare : (cmp.compare [(a.text, e.text)] t t').run s₂ = .error fault) :
    (cmp.step [] a e).run s = .error fault := by
  have hother : (a == e) = false := by
    rw [Ty.beq_eq_same]
    apply Bool.eq_false_of_not_eq_true
    intro hsame
    have href := congrArg Ty.reference? ((Ty.same_iff_erase_eq a e).mp hsame)
    rw [Ty.reference?_erase, Ty.reference?_erase, Ty.reference?_eq_some.mpr ha, Ty.reference?_eq_some.mpr he] at href
    simp only [Option.map_some, Option.some.injEq, Reference.mk.injEq] at href
    exact hdecl href.1
  have hplain : (a.isNever || a.isError || e.isError || e.isAny) = false := by
    simp [Ty.isNever, Ty.isError, Ty.isAny, Ty.isPrimitive, Ty.primitive?, Ty.problem?, ha, he]
  have hgeneral : cmp.step [] a e = cmp.resolvedTypes [(a.text, e.text)] a e := by
    rw [step, hother, hplain, ha, he]
    simp only [Bool.false_eq_true, if_false, hdecl]
    rw [general, Ty.reference?, Ty.reference?, ha, he]
    rfl
  rw [hgeneral, resolvedTypes]
  apply (Search.run_bind_of_ok (Resolver.declared_run (Ty.reference?_eq_some.mpr ha) ht hresolve)).trans
  apply (Search.run_bind_of_ok (Resolver.declared_run (Ty.reference?_eq_some.mpr he) ht' hresolve')).trans
  dsimp only
  rw [ht, ht']
  show (resolvedTypes.unnamed cmp _ a e t t').run s₂ = _
  rw [resolvedTypes.unnamed, Ty.beq_eq_same, hdiffer]
  exact Search.run_bind_of_error hcompare

/-! ### The comparison -/

/-- `compare` does not come to an end on interfaces below two named types that stand for interfaces whose method gives
such an interface, nor on what the named types stand for. -/
theorem compare_diverges {key key' : ReferenceKey} (hkey : key ≠ key') {t t' : Ty}
    (hkept : c.resolved.get? key = some t) (hkept' : c.resolved.get? key' = some t') (ht : t.leadsTo key = true)
    (ht' : t'.leadsTo key' = true) (depth references : Nat) (assumed : Assumptions) :
    (∀ {a e : Ty}, a.inheritsFrom key = true → e.inheritsFrom key' = true →
      ((answers p depth references).compare assumed a e).run c = .error .tooDeep) ∧
    ∀ {a e : Ty}, a.leadsTo key = true → e.leadsTo key' = true →
      ((answers p depth references).compare assumed a e).run c = .error .tooDeep := by
  -- the two comparisons lead to each other: inherited methods give interfaces that inherit again
  induction depth with
  | zero => exact ⟨fun _ _ => rfl, fun _ _ => rfl⟩
  | succ depth ih =>
    obtain ⟨m, hm, hname, hparams, hkind, hresult⟩ := Ty.exists_of_leadsTo ht
    obtain ⟨m', hm', hname', hparams', hkind', hresult'⟩ := Ty.exists_of_leadsTo ht'
    constructor
    · intro a e ha he
      have hdiffer := Ty.same_of_inheritsFrom hkey ha he
      obtain ⟨u, r, hshape, hu, hr⟩ := Ty.exists_of_inheritsFrom ha
      obtain ⟨u', r', hshape', hu', hr'⟩ := Ty.exists_of_inheritsFrom he
      cases depth with
      | zero =>
        have hcut : ((answers p 0 references).interfaceMethods ⟨[], [u]⟩).run c = .error .tooDeep :=
          Resolver.interfaceMethods_run_fault hu rfl
        show (Comparer.step _ assumed a e).run c = _
        rw [Comparer.step_of_interfaces hshape hshape' hdiffer]
        exact Search.run_bind_of_error hcut
      | succ depth =>
        have hresolve : ((answers p (depth + 1) references).resolve r).run c = .ok (t, c) :=
          Typing.resolve_run_known (by rw [hr, hkept])
        have hresolve' : ((answers p (depth + 1) references).resolve r').run c = .ok (t', c) :=
          Typing.resolve_run_known (by rw [hr', hkept'])
        apply Comparer.step_run_fault_of_results hshape hshape' hdiffer
          (Resolver.interfaceMethods_of_super hu hm hresolve) (Resolver.interfaceMethods_of_super hu' hm' hresolve')
        · rw [hname, hname']
          rfl
        · exact Comparer.signature_run_fault hparams hparams' (hkind.trans hkind'.symm) (ih.1 hresult hresult')
    · intro a e ha he
      have hdiffer := Ty.same_of_leadsTo hkey ha he
      obtain ⟨m, hshape, hname, hparams, hkind, hresult⟩ := Ty.exists_of_leadsTo ha
      obtain ⟨m', hshape', hname', hparams', hkind', hresult'⟩ := Ty.exists_of_leadsTo he
      apply Comparer.step_run_fault_of_results hshape hshape' hdiffer rfl rfl
      · rw [hname, hname']
        rfl
      · exact Comparer.signature_run_fault hparams hparams' (hkind.trans hkind'.symm) (ih.1 hresult hresult')

/-- Interfaces `type Left = interface { next: fn() -> interface : Left {} }` and
`type Right = interface { next: fn() -> interface : Right {} }`. -/
def ladders : Tree where
  nodes := #[
    { form := .typeDecl { name := "Left", definition := 4 }, parent := some 10 },
    { form := .reference { name := "Left", target := some 0 } [], parent := some 2 },
    { form := .interfaceType [] [1], parent := some 3 },
    { form := .interfaceMethod { names := ["next"], result := some 2 }, parent := some 4 },
    { form := .interfaceType [3] [], parent := some 0 },
    { form := .typeDecl { name := "Right", definition := 9 }, parent := some 10 },
    { form := .reference { name := "Right", target := some 5 } [], parent := some 7 },
    { form := .interfaceType [] [6], parent := some 8 },
    { form := .interfaceMethod { names := ["next"], result := some 7 }, parent := some 9 },
    { form := .interfaceType [8] [], parent := some 5 },
    { form := .compilationUnit [0, 5] }]

/-- A new checker that is asked whether `Left` is assignable to `Right` does not come to a verdict, however deep the
search goes. -/
theorem ladders_diverge :
    ladders.WellFormed ∧ ∀ depth,
      ((answers ladders depth 0).compare [] (.reference 0 "Left" []) (.reference 5 "Right" [])).run {} =
        .error .tooDeep := by
  let left : Reference Ty := { decl := 0, name := "Left" }
  let right : Reference Ty := { decl := 5, name := "Right" }
  let session (q : Queries) : Infer Bool := do
    let t ← q.resolve left
    let t' ← q.resolve right
    let c ← get
    return t.leadsTo (0, "") && t'.leadsTo (5, "") && (c.resolved.get? (0, "")).any (·.leadsTo (0, "")) &&
      (c.resolved.get? (5, "")).any (·.leadsTo (5, ""))
  have hp : ladders.WellFormed := .of_forall (by decide)
  refine ⟨hp, fun depth => ?_⟩
  obtain ⟨found, c, hsession, hfound⟩ := Search.exists_run_of_any (x := session (answers ladders 6 0)) (s := {})
    (P := id) (by decide +kernel)
  obtain ⟨t, c₁, hleft, hsession⟩ := Search.run_bind_eq_ok.mp hsession
  obtain ⟨t', c₂, hright, hsession⟩ := Search.run_bind_eq_ok.mp hsession
  obtain ⟨rfl, rfl⟩ := Prod.mk.inj (Except.ok.inj hsession)
  simp only [id, Bool.and_eq_true] at hfound
  obtain ⟨⟨⟨ht, ht'⟩, hkept⟩, hkept'⟩ := hfound
  obtain ⟨u, hu, hleads⟩ := (Option.any_eq_true _ _).mp hkept
  obtain ⟨u', hu', hleads'⟩ := (Option.any_eq_true _ _).mp hkept'
  have hkey : ((0, "") : ReferenceKey) ≠ (5, "") := by decide
  -- what is found at a small depth is found at any larger one
  have hdeeper := answers_deepens ladders (Nat.le_add_left 6 depth) 0
  replace hleft := ((hdeeper.resolve left {}).resolve_left (by simp [hleft])).trans hleft
  replace hright := ((hdeeper.resolve right c₁).resolve_left (by simp [hright])).trans hright
  have hcompare (assumed : Assumptions) :=
    (compare_diverges (p := ladders) hkey hu hu' hleads hleads' (depth + 6) 0 assumed).2 ht ht'
  obtain ⟨m, hm, -⟩ := Ty.exists_of_leadsTo ht
  obtain ⟨m', hm', -⟩ := Ty.exists_of_leadsTo ht'
  -- only these three answers matter
  have hstep {q : Queries} (hleft : (q.resolve left).run {} = .ok (t, c₁))
      (hright : (q.resolve right).run c₁ = .ok (t', c₂))
      (hcompare : ∀ assumed, (q.compare assumed t t').run c₂ = .error .tooDeep) :
      (q.comparer.step [] (.of (.ref left)) (.of (.ref right))).run {} = .error .tooDeep :=
    Comparer.step_run_fault_of_declared rfl rfl (by decide) hm hm' (Ty.same_of_leadsTo hkey ht ht')
      hleft hright (hcompare _)
  have hdeepest : ((answers ladders (depth + 7) 0).compare [] (.of (.ref left)) (.of (.ref right))).run {} =
      .error .tooDeep :=
    hstep hleft hright hcompare
  have hsame :=
    (answers_deepens ladders (Nat.le_add_right depth 7) 0).compare [] (.of (.ref left)) (.of (.ref right)) {}
  exact hsame.elim id fun hsame => hsame.symm.trans hdeepest

end Ascribe
