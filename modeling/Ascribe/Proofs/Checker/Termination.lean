import Ascribe.Proofs.Checker.Session
import Ascribe.Proofs.Checker.Totality

/-!
# When a checker finds the type of a node

A checker that has been asked about a well-formed tree, and about types that point into it, keeps only such types
(`AskedAbout.within`). Asked for the type of a node it then comes to an end unless questions about types nest forever:
this is the only way for a search to go on, whatever names point at and however declarations are nested.

Questions about types do nest forever for a union that is the first of its own members. A member of such a union is
looked up on its members first, so on the union again (`recursiveUnion_diverges`).

## Key results

- `answers_run`: a question is answered in the arena, or cut short; no node is missed
- `Checker.typeOf_ends`: a checker finds the type of a node exactly if questions about types do not nest forever
- `member_diverges`: looking up a member of a union that is its own first member does not come to an end
-/

namespace Ascribe

variable {p : Tree} {c c' : Checker}

/-! ## The questions of a host -/

/-- A question about nodes of a tree and types that point into it. -/
def Query.Within (p : Tree) : Query → Prop
  | .typeOf node => node < p.size
  | .resolve t => t.Within p.size
  | .compare actual expected => actual.Within p.size ∧ expected.Within p.size
  | .castSafety source target => source.Within p.size ∧ target.Within p.size
  | .memberNodes t => t.Within p.size
  | .diagnostics root => root < p.size

/-- The checkers that questions about one tree lead to, from a new one with any settings. -/
inductive AskedAbout (p : Tree) : Checker → Prop where
  | new (settings : Settings) : AskedAbout p { settings }
  | step {c c' : Checker} (h : AskedAbout p c) (query : Query) (within : query.Within p)
    (run : (query.ask p).run c = .ok ((), c')) : AskedAbout p c'

namespace Queries.Ensures

variable {q : Queries} {total : Prop} {scope : Scope} {I : Checker → Prop} (h : q.Ensures total scope I)

include h

theorem castSafety {source target : Ty} (hsource : source.InScope scope) (htarget : target.InScope scope) :
    (q.comparer.castSafety source target).Ensures total I fun _ => True := by
  have hunwraps {a e : Ty} (ha : a.InScope scope) (he : e.InScope scope) :
      (q.comparer.unwraps a e).Ensures total I fun _ => True := by
    unfold Comparer.unwraps
    split
    · next base hbase => exact h.assignable (Shape.inScope_nullable.mp (ha.shape hbase)).2 he
    · exact .pure trivial
  refine .bind (h.assignable hsource htarget) fun isSafe _ => ?_
  split
  · exact .pure trivial
  refine .bind (h.walks.target hsource) fun source hsource => ?_
  refine .bind (h.walks.target htarget) fun target htarget => ?_
  split
  · exact .pure trivial
  refine .bind (hunwraps hsource htarget) fun isWrapped _ => ?_
  split
  · exact .pure trivial
  refine .bind (h.assignable htarget hsource) fun isBack _ => ?_
  split <;> exact .pure trivial

theorem memberNodes {t : Ty} (ht : t.InScope scope) : (q.memberNodes t).Ensures total I fun _ => True := by
  refine .bind (h.resolveDeep ht.stripNullable) fun target htarget => ?_
  split
  case h_3 body hbody => exact .bind (h.interfaceMethods (htarget.shape hbody)) fun _ _ => .pure trivial
  all_goals exact .pure trivial

variable (hp : p.InScope total scope)

include hp

theorem diagnosticAt {node : NodeId} (hnode : scope.node node = true) :
    (q.diagnosticAt p node).Ensures total I fun _ => True := by
  refine .bind (h.typeOf hnode) fun t _ => ?_
  split
  · split
    · exact .pure trivial
    · refine .bind (.ofWalk fun htotal => ?_) fun _ _ => .pure trivial
      obtain ⟨n, hn, -⟩ := Tree.node_ok (hp.present htotal hnode)
      exact ⟨n, hn⟩
  · exact .pure trivial

theorem diagnostics {root : NodeId} (hroot : scope.node root = true) :
    (q.diagnostics p root).Ensures total I fun _ => True := by
  have hwalk : (Search.ofWalk (p.descendants root) : Infer (List NodeId)).Ensures total I
      (p.descendants root = .ok ·) := by
    exact .ofWalk fun htotal => (hp.wellFormed htotal).linked.descendants_ok (hp.present htotal hroot)
  refine .bind hwalk fun nodes hnodes => ?_
  -- a node that the walk lists has a form, so it is in scope
  have hone (n : NodeId) (hn : n ∈ nodes) : (q.diagnosticAt p n).Ensures total I fun _ => True := by
    obtain ⟨depth, hpreorder⟩ := Tree.descendants_eq_ok_iff.mp hnodes
    obtain ⟨form, -, hform⟩ := Tree.form_ok (Tree.lt_size_of_mem_preorderWithin hpreorder n hn)
    exact h.diagnosticAt hp (hp.here hform)
  exact .mono (.filterMapM (R := fun _ => True) fun n hn => (hone n hn).mono fun _ _ => by simp) fun _ _ => trivial

end Queries.Ensures

/-- The nodes that a question is about. -/
def Query.nodes : Query → List NodeId
  | .typeOf node | .diagnostics node => [node]
  | _ => []

/-- The types that a host supplies with a question. -/
def Query.types : Query → List Ty
  | .typeOf _ | .diagnostics _ => []
  | .resolve t | .memberNodes t => [t]
  | .compare t u | .castSafety t u => [t, u]

theorem Query.Within.inScope {query : Query} (h : query.Within p) :
    (∀ n ∈ query.nodes, (Scope.arena p.size).node n = true) ∧ ∀ t ∈ query.types, t.InScope (.arena p.size) := by
  cases query with
  | typeOf node | diagnostics node => exact ⟨List.forall_mem_singleton.mpr (decide_eq_true h), by simp [Query.types]⟩
  | resolve t | memberNodes t => exact ⟨by simp [Query.nodes], List.forall_mem_singleton.mpr h⟩
  | compare t u | castSafety t u =>
    exact ⟨by simp [Query.nodes], List.forall_mem_cons.mpr ⟨h.1, List.forall_mem_singleton.mpr h.2⟩⟩

/-- `askOf` is answered in scope if the questions behind it are. -/
theorem Query.askOf_ensures {total : Prop} {scope : Scope} {I : Checker → Prop} {q : Queries} {query : Query}
    (h : q.Ensures total scope I) (hp : p.InScope total scope) (hnodes : ∀ n ∈ query.nodes, scope.node n = true)
    (htypes : ∀ t ∈ query.types, t.InScope scope) : (query.askOf p q).Ensures total I fun _ => True := by
  cases query with
  | typeOf node => exact .map ((h.typeOf (hnodes node List.mem_cons_self)).mono fun _ _ => trivial)
  | resolve t => exact .map ((h.resolveDeep (htypes t List.mem_cons_self)).mono fun _ _ => trivial)
  | compare actual expected =>
    exact .map (h.compare (htypes actual (by simp [types])) (htypes expected (by simp [types])))
  | castSafety source target =>
    exact .map (h.castSafety (htypes source (by simp [types])) (htypes target (by simp [types])))
  | memberNodes t => exact .map (h.memberNodes (htypes t List.mem_cons_self))
  | diagnostics root => exact .map (h.diagnostics hp (hnodes root List.mem_cons_self))

theorem Query.askOf_total (hp : p.WellFormed) {query : Query} (hquery : query.Within p) {q : Queries}
    {I : Checker → Prop} (h : q.TotalUnder p I) : (query.askOf p q).TotalUnder I fun _ => True :=
  Search.ensures_true_iff.mp (Query.askOf_ensures h hp.inScope hquery.inScope.1 hquery.inScope.2)

/-! ## Answers point into the arena -/

/-- Answers to questions about types that are given without asking anything. -/
def Queries.offhand : Queries :=
  { Queries.exhausted with
    common := fun _ => return none
    member := fun _ _ => return .never
    compare := fun _ _ _ => Comparer.accept }

theorem Queries.offhand_judges (p : Tree) (I : Checker → Prop) : offhand.Judges p I where
  common _ := .pure (by simp)
  member _ := .pure (Ty.within_iff_inScope.mpr (Ty.prim_inScope .never))
  compare _ _ := .pure trivial

theorem le_depthFor (p : Tree) (settings : Settings) (nesting : Nat) : nesting ≤ depthFor p settings nesting := by
  have : nesting ≤ p.size + settings.maxReferenceDepth + nesting + 1 := by omega
  exact this.trans (Nat.le_mul_of_pos_left _ (by omega))

section Questions

variable (hp : p.WellFormed) (hc : c.Within p.size) {α : Type} {x : Queries → Infer α} {P : α → Prop}
  (htotal : ∀ {q : Queries} {I : Checker → Prop}, q.TotalUnder p I → (x q).TotalUnder I P)

include hp hc htotal

/-- `bounded` answers every question, since questions about types may nest only so far. -/
theorem bounded_run {beyond : Queries} (hbeyond : ∀ I, beyond.Judges p I) (nesting : Nat) :
    ∃ v c', (x (bounded beyond p (depthFor p c.settings nesting) nesting 0)).run c = .ok (v, c') ∧
      c'.Within p.size ∧ P v := by
  have hanswers := bounded_total hp hbeyond (Nat.le_refl (p.size + c.settings.maxReferenceDepth + nesting))
    (Nat.le_add_left c.settings.maxReferenceDepth 0) (Nat.le_refl _)
  obtain ⟨v, c', hrun, hc', hv⟩ := htotal hanswers c hc.bounded
  exact ⟨v, c', hrun, hc'.toWithin, hv⟩

/-- `answers` answer a question, unless the search for the answer is cut short. -/
theorem answers_run
    (hrel : ∀ {q r : Queries}, q.InStep (.deepens Checker) r → (Lockstep.deepens Checker).Rel (x q) (x r))
    (depth : Nat) :
    (x (answers p depth 0)).run c = .error .tooDeep ∨
      ∃ v c', (x (answers p depth 0)).run c = .ok (v, c') ∧ c'.Within p.size ∧ P v := by
  obtain ⟨v, c', hrun, hc', hv⟩ := bounded_run hp hc htotal (Queries.offhand_judges p) depth
  have hstep := bounded_deepens_answers .offhand p (le_depthFor p c.settings depth) (Nat.le_refl depth) 0
  refine (hrel hstep c).imp_right fun hsame => ?_
  exact ⟨v, c', hsame.symm.trans hrun, hc', hv⟩

end Questions

/-- A checker that is `AskedAbout` a tree keeps only types that are `Within` it. -/
theorem AskedAbout.within (hp : p.WellFormed) (h : AskedAbout p c) : c.Within p.size := by
  induction h with
  | new settings => exact Checker.within_new _ settings
  | step _ query hquery run ih =>
    rw [Query.run_ask] at run
    rcases answers_run hp ih (Query.askOf_total hp hquery) (fun h => Query.askOf_rel h p query) _ with hdeep | hok
    · cases run.symm.trans hdeep
    · obtain ⟨v, c', hrun, hc', -⟩ := hok
      obtain ⟨-, rfl⟩ := Prod.mk.inj (Except.ok.inj (run.symm.trans hrun))
      exact hc'

/-! ## Nesting -/

/-- To find the type of a node no more than `nesting` questions about types are answered inside each other. -/
def Checker.NestsWithin (p : Tree) (c : Checker) (node : NodeId) (nesting : Nat) : Prop :=
  ((bounded .exhausted p (depthFor p c.settings nesting) nesting 0).typeOf node).run c ≠ .error .tooDeep

namespace Checker.NestsWithin

variable {node : NodeId} {nesting : Nat} {t : Ty}

/-- `answers` that nest no further than a bound find what `bounded` finds. -/
theorem answers_run (h : c.NestsWithin p node nesting)
    (hrun : ((bounded .offhand p (depthFor p c.settings nesting) nesting 0).typeOf node).run c = .ok (t, c'))
    {depth : Nat} (hdepth : depthFor p c.settings nesting ≤ depth) :
    ((answers p depth 0).typeOf node).run c = .ok (t, c') := by
  have hoffhand := ((bounded_deepens .offhand p (Nat.le_refl _) (Nat.le_refl _) 0).typeOf node c).resolve_left h
  have hdeeper := bounded_deepens .exhausted p hdepth ((le_depthFor p c.settings nesting).trans hdepth) 0
  rw [bounded_eq_answers .exhausted (Nat.le_refl depth)] at hdeeper
  calc ((answers p depth 0).typeOf node).run c
    _ = _ := (hdeeper.typeOf node c).resolve_left h
    _ = _ := hoffhand.symm
    _ = .ok (t, c') := hrun

/-- Questions about types nest no further than a search by `answers` that comes to an end goes. -/
theorem of_answers_run {depth : Nat} (hrun : ((answers p depth 0).typeOf node).run c = .ok (t, c')) :
    c.NestsWithin p node depth := by
  intro hdeep
  have hstep := bounded_deepens_answers .exhausted p (le_depthFor p c.settings depth) (Nat.le_refl depth) 0
  rcases hstep.typeOf node c with hcut | hsame
  · cases hrun.symm.trans hcut
  · cases hdeep.symm.trans (hsame.trans hrun)

end Checker.NestsWithin

/-- The type of a node is found in a well-formed tree, after any questions about it, exactly if the questions about
types that it leads to do not nest forever.

If at most `nesting` of them are answered inside each other, whatever is said about further ones, the search comes to an
end. So if no further ones come up, every search that goes deep enough finds the same type, the one of a host among
them, and any other one is cut short. Conversely, questions nest no further than a search goes that finds a type. -/
theorem Checker.typeOf_ends (hp : p.WellFormed) (hc : AskedAbout p c) {node : NodeId} (hnode : node < p.size)
    (nesting : Nat) :
    (∀ beyond : Queries, (∀ I, beyond.Judges p I) → ∃ t c', t.Within p.size ∧ c'.Within p.size ∧
      ((bounded beyond p (depthFor p c.settings nesting) nesting 0).typeOf node).run c = .ok (t, c')) ∧
    (c.NestsWithin p node nesting → ∃ t c', t.Within p.size ∧ c'.Within p.size ∧
      (∀ depth, ((answers p depth 0).typeOf node).run c = .ok (t, c') ∨
        depth < depthFor p c.settings nesting ∧ ((answers p depth 0).typeOf node).run c = .error .tooDeep) ∧
      (depthFor p c.settings nesting ≤ questionDepth p c.settings → (typeOf p node).run c = .ok (t, c'))) ∧
    ∀ t c', ((answers p nesting 0).typeOf node).run c = .ok (t, c') → c.NestsWithin p node nesting := by
  have hbounded {beyond : Queries} (hbeyond : ∀ I, beyond.Judges p I) :=
    bounded_run hp (hc.within hp) (fun h => h.typeOf hnode) hbeyond nesting
  refine ⟨fun beyond hbeyond => ?_, fun hnests => ?_, fun t c' hrun => .of_answers_run hrun⟩
  · obtain ⟨t, c', hrun, hc', ht⟩ := hbounded hbeyond
    exact ⟨t, c', ht, hc', hrun⟩
  · obtain ⟨t, c', hrun, hc', ht⟩ := hbounded (Queries.offhand_judges p)
    refine ⟨t, c', ht, hc', fun depth => ?_, fun hdepth => ?_⟩
    · rcases Nat.lt_or_ge depth (depthFor p c.settings nesting) with hshort | hdepth
      · have hsame := (answers_deepens p (Nat.le_of_lt hshort) 0).typeOf node c
        rw [hnests.answers_run hrun (Nat.le_refl _)] at hsame
        exact hsame.elim (fun hdeep => .inr ⟨hshort, hdeep⟩) fun hfound => .inl hfound.symm
      · exact .inl (hnests.answers_run hrun hdepth)
    · rw [typeOf, run_queries_bind]
      exact hnests.answers_run hrun hdepth

/-- A list `type Link = struct { next: Link?, tag: u8 }`, a type `type End = struct { tag: u16 }`, a variable `x` of
type `Link | End`, and the expression `x.tag`. -/
def links : Tree where
  nodes := #[
    { form := .reference { name := "Link", target := some 6 } [], parent := some 1 },
    { form := .nullableType 0, parent := some 2 },
    { form := .field "next" 1, parent := some 5 },
    { form := .primitive .u8, parent := some 4 },
    { form := .field "tag" 3, parent := some 5 },
    { form := .structType [2, 4], parent := some 6 },
    { form := .typeDecl { name := "Link", definition := 5 } },
    { form := .primitive .u16, parent := some 8 },
    { form := .field "tag" 7, parent := some 9 },
    { form := .structType [8], parent := some 10 },
    { form := .typeDecl { name := "End", definition := 9 } },
    { form := .reference { name := "Link", target := some 6 } [], parent := some 13 },
    { form := .reference { name := "End", target := some 10 } [], parent := some 13 },
    { form := .unionType [11, 12], parent := some 14 },
    { form := .varDecl { name := "x", type := some 13 } },
    { form := .name { name := "x", target := some 14 }, parent := some 16 },
    { form := .member { base := 15, name := "tag" } }]

/-- Once the type of `x` has been asked for, the type of `x.tag` is found: the member is looked up on both members of
the union, and what is found is merged. -/
theorem links_ends :
    ∃ c, links.WellFormed ∧ AskedAbout links c ∧ 16 < links.size ∧ c.NestsWithin links 16 3 ∧
      ∃ t c', (Checker.typeOf links 16).run c = .ok (t, c') := by
  let session : Infer Ty := do
    (Query.typeOf 14).ask links
    (bounded .exhausted links (depthFor links {} 3) 3 0).typeOf 16
  obtain ⟨t, c', hrun, -⟩ := Search.exists_run_of_any (x := session) (s := {}) (P := fun _ => true) (by decide +kernel)
  obtain ⟨_, c, hask, hfound⟩ := Search.run_bind_eq_ok.mp hrun
  have hsettings : c.settings = {} := ((Query.typeOf 14).ask_growing links {} () c hask).settings
  have hp : links.WellFormed := .of_forall (by decide)
  have hc : AskedAbout links c := .step (.new {}) (.typeOf 14) (by decide : 14 < links.size) hask
  have hnests : c.NestsWithin links 16 3 := by
    intro hdeep
    rw [hsettings] at hdeep
    cases hfound.symm.trans hdeep
  obtain ⟨-, hends, -⟩ := Checker.typeOf_ends hp hc (by decide : 16 < links.size) 3
  obtain ⟨t, c', -, -, -, htype⟩ := hends hnests
  refine ⟨c, hp, hc, by decide, hnests, t, c', htype ?_⟩
  rw [hsettings]
  decide

/-! ## A search that does not come to an end -/

/-- Whether a type is a union that starts with a type named by a key. -/
def Ty.startsWith (key : ReferenceKey) (t : Ty) : Bool :=
  match t.shape with
  | .union (u :: _) => u.reference?.any (·.key == key)
  | _ => false

theorem Ty.exists_of_startsWith {key : ReferenceKey} {t : Ty} (h : t.startsWith key = true) :
    ∃ u rest r, t.shape = .union (u :: rest) ∧ u.reference? = some r ∧ r.key = key := by
  unfold Ty.startsWith at h
  split at h
  · next u rest hshape =>
    obtain ⟨r, hr, hkey⟩ := (Option.any_eq_true _ _).mp h
    exact ⟨u, rest, r, hshape, hr, beq_iff_eq.mp hkey⟩
  · cases h

/-- `member` does not come to an end on a named type that stands for a union which starts with it, nor on a union that
starts with such a named type. -/
theorem member_diverges {key : ReferenceKey} {t : Ty} (hkept : c.resolved.get? key = some t)
    (ht : t.startsWith key = true) (name : String) (depth references : Nat) :
    (∀ {u : Ty} {r}, u.reference? = some r → r.key = key →
      ((answers p depth references).member u name).run c = .error .tooDeep) ∧
    ∀ {u : Ty}, u.startsWith key = true → ((answers p depth references).member u name).run c = .error .tooDeep := by
  -- the two lookups lead to each other: a name to the union it stands for, and the union to its first member
  induction depth with
  | zero => exact ⟨fun _ _ => rfl, fun _ => rfl⟩
  | succ depth ih =>
    have hunion {v u : Ty} (hu : u.startsWith key = true)
        (hresolve : ((answers p depth references).resolveDeep v).run c = .ok (u, c)) :
        ((answers p (depth + 1) references).member v name).run c = .error .tooDeep := by
      obtain ⟨first, rest, r, hshape, hfirst, hr⟩ := Ty.exists_of_startsWith hu
      refine (Search.run_bind_of_ok hresolve).trans ?_
      rw [hshape]
      exact Search.run_bind_of_error (Search.run_bind_of_error (ih.1 hfirst hr))
    refine ⟨fun {u r} hu hr => ?_, fun {u} hu => hunion hu ?_⟩
    · cases depth with
      | zero =>
        refine Search.run_bind_of_error ?_
        rw [Queries.resolveDeep, hu]
        rfl
      | succ depth =>
        refine hunion ht ?_
        rw [Queries.resolveDeep, hu]
        exact Typing.resolve_run_known (hr ▸ hkept)
    · obtain ⟨first, rest, r, hshape, -⟩ := Ty.exists_of_startsWith hu
      have hname : u.reference? = none := by simp [Ty.reference?, hshape]
      rw [Queries.resolveDeep, hname]
      rfl

/-- `valueMember` is cut short if `member` is on what the type of the value stands for. -/
theorem Typing.valueMember_run_fault {q : Queries} {m : MemberForm} {base target : Ty} {c₁ c₂ : Checker} {fault : Fault}
    (hbase : (q.typeOf m.base).run c = .ok (base, c₁)) (herror : base.isError = false)
    (htarget : (q.resolveDeep base).run c₁ = .ok (target, c₂)) (hnull : target.isNullable = false)
    (hmember : (q.member target m.name).run c₂ = .error fault) : (valueMember p q m).run c = .error fault := by
  refine (Search.run_bind_of_ok hbase).trans ?_
  rw [herror]
  refine (Search.run_bind_of_ok htarget).trans ?_
  rw [hnull]
  exact hmember

/-- A union `type A = A | u8` that is its own first member, a variable `x` of type `A`, and the expression `x.n`. -/
def recursiveUnion : Tree where
  nodes := #[
    { form := .typeDecl { name := "A", definition := 3 }, parent := some 8 },
    { form := .reference { name := "A", target := some 0 } [], parent := some 3 },
    { form := .primitive .u8, parent := some 3 },
    { form := .unionType [1, 2], parent := some 0 },
    { form := .reference { name := "A", target := some 0 } [], parent := some 5 },
    { form := .varDecl { name := "x", type := some 4 }, parent := some 8 },
    { form := .name { name := "x", target := some 5 }, parent := some 7 },
    { form := .member { base := 6, name := "n" }, parent := some 8 },
    { form := .compilationUnit [0, 5, 7] }]

/-- The type of `x.n` is not found, however deep the search goes. -/
theorem recursiveUnion_diverges :
    recursiveUnion.WellFormed ∧ 7 < recursiveUnion.size ∧
      ∀ depth, ((answers recursiveUnion depth 0).typeOf 7).run {} = .error .tooDeep := by
  let access : MemberForm := { base := 6, name := "n" }
  let opened : Checker := { memo := Memo.start {} 7 }
  let lookup (q : Queries) : Infer Bool := do
    let base ← q.typeOf 6
    let target ← q.resolveDeep base
    let kept := (← get).resolved.get? (0, "")
    return !base.isError && !target.isNullable && target.startsWith (0, "") && kept.any (·.startsWith (0, ""))
  have hp : recursiveUnion.WellFormed := .of_forall (by decide)
  refine ⟨hp, by decide, fun depth => ?_⟩
  -- `A` has the key `(0, "")`
  obtain ⟨found, c, hlookup, hfound⟩ := Search.exists_run_of_any (x := lookup (answers recursiveUnion 4 0))
    (s := opened) (P := id) (by decide +kernel)
  obtain ⟨base, c₁, hbase, hlookup⟩ := Search.run_bind_eq_ok.mp hlookup
  obtain ⟨target, c₂, htarget, hlookup⟩ := Search.run_bind_eq_ok.mp hlookup
  obtain ⟨rfl, rfl⟩ := Prod.mk.inj (Except.ok.inj hlookup)
  simp only [id, Bool.and_eq_true, Bool.not_eq_true'] at hfound
  obtain ⟨⟨⟨herror, hnull⟩, hstarts⟩, hkept⟩ := hfound
  obtain ⟨t, hkept, ht⟩ := (Option.any_eq_true _ _).mp hkept
  -- what is found at a small depth is found at any larger one
  have hdeeper := answers_deepens recursiveUnion (Nat.le_add_left 4 depth) 0
  replace hbase := ((hdeeper.typeOf 6 opened).resolve_left (by simp [hbase])).trans hbase
  replace htarget := ((hdeeper.resolveDeep base c₁).resolve_left (by simp [htarget])).trans htarget
  have hmember := (member_diverges (p := recursiveUnion) hkept ht "n" (depth + 4) 0).2 hstarts
  rcases (answers_deepens recursiveUnion (Nat.le_add_right depth 5) 0).typeOf 7 {} with hdeep | hsame
  · exact hdeep
  rw [← hsame]
  change (Typing.typeOf recursiveUnion (answers recursiveUnion (depth + 4) 0) 7).run {} = _
  -- from here on only these three answers matter
  generalize answers recursiveUnion (depth + 4) 0 = q at hbase htarget hmember ⊢
  have hvalue : Typing.memberType recursiveUnion q access = Typing.valueMember recursiveUnion q access := rfl
  have hrule : (Typing.memberType recursiveUnion q access).run opened = .error .tooDeep := by
    rw [hvalue]
    exact Typing.valueMember_run_fault hbase herror htarget hnull hmember
  exact Typing.typeOf_run_fault rfl rfl hrule

end Ascribe
