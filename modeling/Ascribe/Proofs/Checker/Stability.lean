import Ascribe.Proofs.Checker.Session

/-!
# Answers are stable

Between the operations of a session no node is open, so the node a host asks about is the outermost one and
its type is kept. From then on it is handed out, whatever else is asked, and handing it out changes nothing.

## Key results

- `Checker.typeOf_kept`: the type that a host is told is finished in the memo
- `Checker.typeOf_again`: asking again gives the same type and leaves the checker alone
- `Reached.answers_stable`: both, for every checker that a session leads to, with the consequences for
  finished types in general and for diagnostics
- `Checker.resolve_kept`, `Checker.resolve_again`, `Reached.resolve_stable`: the same for what named types stand for
-/

namespace Ascribe

namespace Checker

variable {p : Tree} {node : NodeId} {t : Ty} {c c' : Checker}

/-- `questionDepth` is positive: a host may ask questions that ask others. -/
theorem exists_questionDepth (p : Tree) (s : Settings) : ∃ depth, questionDepth p s = depth + 1 := by
  refine Nat.exists_eq_succ_of_ne_zero ?_
  unfold questionDepth depthLimit
  omega

/-- `answersFor` asks for the type of a node through the memo. -/
theorem answersFor_typeOf (p : Tree) (settings : Settings) (node : NodeId) :
    ∃ q : Queries, q.InStep Lockstep.growing q ∧ (answersFor p settings).typeOf node = Typing.typeOf p q node := by
  obtain ⟨depth, hdepth⟩ := exists_questionDepth p settings
  refine ⟨answers p depth 0, answers_growing p depth 0, ?_⟩
  rw [answersFor, hdepth]
  rfl

/-- The type that `answersFor` finds is finished in the memo. -/
theorem answersFor_kept {settings : Settings} (hidle : c.memo.Idle)
    (hrun : ((answersFor p settings).typeOf node).run c = .ok (t, c')) : c'.memo.get? node = some (.done t) := by
  obtain ⟨q, hq, htypeOf⟩ := answersFor_typeOf p settings node
  rw [htypeOf] at hrun
  obtain ⟨hdone, rfl⟩ | ⟨hopen, -⟩ | ⟨-, form, u, c₁, -, hrule, rfl, rfl⟩ := Typing.typeOf_run_cases hrun
  · exact hdone
  · exact absurd hopen (hidle.closed node)
  · -- the node is opened while no other one is, so it is the outermost and stays untainted
    have hgrows := Typing.ruleFor_rel hq p Lockstep.growing_effects node form _ _ _ hrule
    exact Memo.get?_finish hidle.frames hgrows.memo _

/-- `answersFor` any settings hands out a finished type and leaves the checker alone. -/
theorem answersFor_again (settings : Settings) (h : c.memo.get? node = some (.done t)) :
    ((answersFor p settings).typeOf node).run c = .ok (t, c) := by
  obtain ⟨q, -, htypeOf⟩ := answersFor_typeOf p settings node
  rw [htypeOf, Typing.typeOf_run_done h]

/-- `typeOf` leaves the type that a host is told finished in the memo. -/
theorem typeOf_kept (hidle : c.memo.Idle) (hrun : (typeOf p node).run c = .ok (t, c')) :
    c'.memo.get? node = some (.done t) :=
  answersFor_kept hidle hrun

/-- `typeOf` hands out a finished type and leaves the checker alone. -/
theorem typeOf_again (h : c.memo.get? node = some (.done t)) : (typeOf p node).run c = .ok (t, c) :=
  answersFor_again c.settings h

end Checker

/-- Searches that neither look at the state nor change it, as a lockstep. -/
def Lockstep.stateless (σ : Type) : Lockstep σ σ where
  Rel x _ := ∀ s v s', x.run s = .ok (v, s') → s' = s ∧ ∀ other, x.run other = .ok (v, other)
  pure a := by
    intro s v s' h
    obtain ⟨rfl, rfl⟩ := Search.run_pure_eq_ok.mp h
    exact ⟨rfl, fun _ => rfl⟩
  throw fault := by
    intro s v s' h
    exact nomatch h
  bind := by
    intro α β x y k l hx hk s w s' h
    obtain ⟨v, s₁, hv, hw⟩ := Search.run_bind_eq_ok.mp h
    obtain ⟨rfl, hvOther⟩ := hx s v s₁ hv
    obtain ⟨rfl, hwOther⟩ := hk v s₁ w s' hw
    exact ⟨rfl, fun other => Search.run_bind_eq_ok.mpr ⟨v, other, hvOther other, hwOther other⟩⟩

namespace Checker

variable {p : Tree} {node : NodeId} {c c' : Checker} {settings : Settings}

/-- `diagnosticAt` reads the diagnostic of a node off its type. -/
theorem diagnosticAt_read (q : Queries) (p : Tree) (node : NodeId) :
    ∃ read : Ty → Infer (Option Diagnostic),
      q.diagnosticAt p node = q.typeOf node >>= read ∧ ∀ t, (Lockstep.stateless Checker).Rel (read t) (read t) := by
  refine ⟨_, rfl, fun t => ?_⟩
  let L := Lockstep.stateless Checker
  split
  · split
    · exact L.pure none
    · exact L.bind (L.ofWalk _) fun _ => L.pure _
  · exact L.pure none

/-- `diagnosticAt` finds its diagnostic again in every later state, which is left alone. -/
theorem diagnosticAt_again (hidle : c.memo.Idle) {found : Option Diagnostic}
    (hrun : ((answersFor p settings).diagnosticAt p node).run c = .ok (found, c')) {later : Checker}
    (hlater : c'.Grows later) : ((answersFor p settings).diagnosticAt p node).run later = .ok (found, later) := by
  obtain ⟨read, hread, hstateless⟩ := diagnosticAt_read (answersFor p settings) p node
  rw [hread] at hrun ⊢
  obtain ⟨t, c₁, htype, hfound⟩ := Search.run_bind_eq_ok.mp hrun
  obtain ⟨rfl, hagain⟩ := hstateless t c₁ found c' hfound
  have hkept := hlater.memo.done (answersFor_kept hidle htype)
  exact Search.run_bind_eq_ok.mpr ⟨t, later, answersFor_again settings hkept, hagain later⟩

/-- `diagnosticAt` of several nodes finds its diagnostics again in every later state, which is left alone. -/
theorem diagnosticsOf_again {nodes : List NodeId} (hidle : c.memo.Idle) {found : List Diagnostic}
    (hrun : (nodes.filterMapM ((answersFor p settings).diagnosticAt p)).run c = .ok (found, c')) {later : Checker}
    (hlater : c'.Grows later) :
    (nodes.filterMapM ((answersFor p settings).diagnosticAt p)).run later = .ok (found, later) := by
  have hone := (answers_growing p (questionDepth p settings) 0).diagnosticAt p
  induction nodes generalizing c found with
  | nil =>
    obtain ⟨rfl, -⟩ := Search.run_pure_eq_ok.mp hrun
    rfl
  | cons node rest ih =>
    rw [List.filterMapM_cons] at hrun ⊢
    obtain ⟨d, c₁, hd, hrest⟩ := Search.run_bind_eq_ok.mp hrun
    have hidle₁ := hidle.grows (hone node c d c₁ hd).memo
    -- the type behind the first diagnostic is still there after the other ones have been found
    have hgrowing := Lockstep.growing.filterMapM hone rest
    cases d with
    | none =>
      have hrestGrows := hgrowing c₁ found c' hrest
      exact Search.run_bind_eq_ok.mpr
        ⟨none, later, diagnosticAt_again hidle hd (hrestGrows.trans hlater), ih hidle₁ hrest⟩
    | some d =>
      obtain ⟨more, c₂, hmore, hpure⟩ := Search.run_bind_eq_ok.mp hrest
      obtain ⟨rfl, rfl⟩ := Search.run_pure_eq_ok.mp hpure
      have hrestGrows := hgrowing c₁ more c' hmore
      exact Search.run_bind_eq_ok.mpr
        ⟨some d, later, diagnosticAt_again hidle hd (hrestGrows.trans hlater),
          Search.run_bind_eq_ok.mpr ⟨more, later, ih hidle₁ hmore, rfl⟩⟩

/-- `diagnostics` asked for twice in a row are the same. -/
theorem diagnostics_again {root : NodeId} (hidle : c.memo.Idle) {found : List Diagnostic}
    (hrun : (diagnostics p root).run c = .ok (found, c')) : (diagnostics p root).run c' = .ok (found, c') := by
  have hsettings : c'.settings = c.settings :=
    ((answers_growing p (questionDepth p c.settings) 0).diagnostics p root c found c' hrun).settings
  rw [diagnostics, run_queries_bind] at hrun ⊢
  rw [hsettings]
  obtain ⟨nodes, c₀, hnodes, hrest⟩ := Search.run_bind_eq_ok.mp hrun
  obtain ⟨hwalk, rfl⟩ := Search.run_ofWalk_eq_ok.mp hnodes
  refine Search.run_bind_eq_ok.mpr ⟨nodes, c', Search.run_ofWalk_eq_ok.mpr ⟨hwalk, rfl⟩, ?_⟩
  exact diagnosticsOf_again hidle hrest (.refl c')

end Checker

/-- Answers are stable: the type of a node that `typeOf` tells a host is finished, and after any further questions it is
told again and the checker is left alone. No question changes or drops a finished type, so `cachedTypes` never
decreases; and `diagnostics` asked for twice in a row are the same. -/
theorem Reached.answers_stable {c : Checker} (h : Reached c) :
    (∀ p node t c₁, (Checker.typeOf p node).run c = .ok (t, c₁) →
      c₁.memo.get? node = some (.done t) ∧
        ∀ c₂, Asked c₁ c₂ → ∀ p', (Checker.typeOf p' node).run c₂ = .ok (t, c₂)) ∧
    (∀ c₁, Asked c c₁ →
      (∀ node t, c.memo.get? node = some (.done t) → c₁.memo.get? node = some (.done t)) ∧
        c.cachedTypes ≤ c₁.cachedTypes) ∧
    (∀ p root found c₁, (Checker.diagnostics p root).run c = .ok (found, c₁) →
      (Checker.diagnostics p root).run c₁ = .ok (found, c₁)) := by
  refine ⟨fun p node t c₁ htype => ?_, fun c₁ hasked => ?_, fun p root found c₁ hfound => ?_⟩
  · have hkept := Checker.typeOf_kept h.idle htype
    exact ⟨hkept, fun c₂ hasked p' => Checker.typeOf_again (hasked.grows.memo.done hkept)⟩
  · have hgrows := hasked.grows.memo
    exact ⟨fun node t => hgrows.done, hgrows.finished⟩
  · exact Checker.diagnostics_again h.idle hfound

/-- Two functions without written results that call each other:
`fn f = { return 1u8; return g() }` and `fn g = { return f() + 1u32 }`. -/
def mutualCalls : Tree where
  nodes := #[
    { form := .funDecl { name := "f", body := some 7 } },
    { form := .funDecl { name := "g", body := some 13 } },
    { form := .int "1u8", parent := some 3 },
    { form := .returnStmt (some 2), parent := some 7 },
    { form := .name { name := "g", target := some 1 }, parent := some 5 },
    { form := .call { callee := 4 }, parent := some 6 },
    { form := .returnStmt (some 5), parent := some 7 },
    { form := .block [3, 6], parent := some 0 },
    { form := .name { name := "f", target := some 0 }, parent := some 9 },
    { form := .call { callee := 8 }, parent := some 11 },
    { form := .int "1u32", parent := some 11 },
    { form := .binary .add 9 10, parent := some 12 },
    { form := .returnStmt (some 11), parent := some 13 },
    { form := .block [12], parent := some 1 }]

/-- The text of the type that a search finds. -/
def Infer.textFound (x : Infer Ty) (c : Checker) : Option String :=
  (x.run c).toOption.map (·.1.text)

theorem Infer.textFound_eq_some {x : Infer Ty} {c : Checker} {text : String} :
    x.textFound c = some text ↔ ∃ t c', x.run c = .ok (t, c') ∧ t.text = text := by
  simp only [textFound, Option.map_eq_some_iff, toOption_eq_some, Prod.exists]

/-- `f` is typed through `g`, whose own type is thrown away; both are stable once told. -/
theorem mutualCalls_stable :
    ∃ t c₁, (Checker.typeOf mutualCalls 0).run {} = .ok (t, c₁) ∧ t.text = "fn() -> u8" ∧
      c₁.memo.get? 0 = some (.done t) ∧
      ∀ c₂, Asked c₁ c₂ → (Checker.typeOf mutualCalls 0).run c₂ = .ok (t, c₂) := by
  have hfound : (Checker.typeOf mutualCalls 0).textFound {} = some "fn() -> u8" := by decide +kernel
  obtain ⟨t, c₁, hrun, htext⟩ := Infer.textFound_eq_some.mp hfound
  obtain ⟨hkept, hagain⟩ := (Reached.new {}).answers_stable.1 mutualCalls 0 t c₁ hrun
  exact ⟨t, c₁, hrun, htext, hkept, fun c₂ hasked => hagain c₂ hasked mutualCalls⟩

/-! ## Named types -/

/-- The settings that a host can make, starting from the default ones. -/
inductive Settings.Built : Settings → Prop where
  | default : Built {}
  | withDefaultInt {s : Settings} (h : Built s) (p : Primitive) : Built (s.withDefaultInt p)
  | withDefaultFloat {s : Settings} (h : Built s) (p : Primitive) : Built (s.withDefaultFloat p)
  | withMaxReferenceDepth {s : Settings} (h : Built s) (depth : Nat) : Built (s.withMaxReferenceDepth depth)
  | withLogging {s : Settings} (h : Built s) (enabled : Bool) : Built (s.withLogging enabled)

/-- `Built` settings do not keep a host from resolving a named type. -/
theorem Settings.Built.maxReferenceDepth_pos {s : Settings} (h : s.Built) : 0 < s.maxReferenceDepth := by
  induction h with
  | default => decide
  | withDefaultInt _ p ih =>
    unfold Settings.withDefaultInt
    split
    · exact ih
    · exact ih
  | withDefaultFloat _ p ih =>
    unfold Settings.withDefaultFloat
    split
    · exact ih
    · exact ih
  | withMaxReferenceDepth _ depth _ =>
    show 0 < max depth 1
    omega
  | withLogging _ enabled ih => exact ih

namespace Checker

variable {p : Tree} {t u : Ty} {r : Reference Ty} {c c' : Checker}

/-- `resolve` of a named type goes through the memo, inside no other. -/
theorem run_resolve (p : Tree) (ht : t.reference? = some r) (c : Checker) :
    ∃ q : Queries, (resolve p t).run c = (Typing.resolve p q 0 r).run c := by
  obtain ⟨depth, hdepth⟩ := exists_questionDepth p c.settings
  refine ⟨answers p depth 1, ?_⟩
  rw [resolve, run_queries_bind, answersFor, hdepth, Queries.resolveDeep, ht]
  rfl

/-- `keepResolved` keeps what was found if there were no open nodes, since nothing leaks out of the resolution then. -/
theorem keepResolved_kept (hframes : c.memo.frames = []) (c₁ : Checker) {key : ReferenceKey}
    (hu : u.isPlaceholder = false) : (c₁.keepResolved c.memo.mark.1 key u).resolved.get? key = some u := by
  have hleaked : (c₁.memo.observedOutside c.memo.mark.1).1 = false := by
    show c₁.memo.lowest.any (· < c.memo.frames.length) = false
    rw [hframes]
    cases c₁.memo.lowest with
    | none => rfl
    | some position => simp
  unfold keepResolved
  rw [hleaked, hu]
  show (c₁.resolved.insert key u).get? key = some u
  rw [Table.get?_insert, if_pos (beq_self_eq_true key)]

/-- `resolve` keeps what a host is told that a named type stands for. -/
theorem resolve_kept (hidle : c.memo.Idle) (hdepth : 0 < c.settings.maxReferenceDepth)
    (ht : t.reference? = some r) (hu : u.isPlaceholder = false) (hrun : (resolve p t).run c = .ok (u, c')) :
    c'.resolved.get? r.key = some u := by
  obtain ⟨q, hresolve⟩ := run_resolve p ht c
  rw [hresolve] at hrun
  obtain ⟨hkept, rfl⟩ | ⟨-, hdeep, -⟩ | ⟨-, -, c₁, -, rfl⟩ := Typing.resolve_run_cases hrun
  · exact hkept
  · omega
  · exact keepResolved_kept hidle.frames c₁ hu

/-- `resolve` hands out what was kept for a named type and leaves the checker alone. -/
theorem resolve_again (ht : t.reference? = some r) (h : c.resolved.get? r.key = some u) :
    (resolve p t).run c = .ok (u, c) := by
  obtain ⟨q, hresolve⟩ := run_resolve p ht c
  rw [hresolve, Typing.resolve_run_known h]

end Checker

/-- `resolve` resolves a named type once: what a host is told that one stands for is kept, unless that is the
placeholder. After any further questions it is told again and the checker is left alone, with its counters and its log.
-/
theorem Reached.resolve_stable {c : Checker} (h : Reached c) (hsettings : c.settings.Built) {p : Tree} {t u : Ty}
    {r : Reference Ty} {c₁ : Checker} (ht : t.reference? = some r) (hrun : (Checker.resolve p t).run c = .ok (u, c₁))
    (hu : u.isPlaceholder = false) :
    c₁.resolved.get? r.key = some u ∧
      ∀ c₂, Asked c₁ c₂ → ∀ p', (Checker.resolve p' t).run c₂ = .ok (u, c₂) := by
  have hkept := Checker.resolve_kept h.idle hsettings.maxReferenceDepth_pos ht hu hrun
  exact ⟨hkept, fun c₂ hasked p' => Checker.resolve_again ht (hasked.grows.resolved hkept)⟩

/-- Two aliases of each other, `type A = B` and `type B = A`. -/
def circularAliases : Tree where
  nodes := #[
    { form := .reference { name := "B", target := some 3 } [], parent := some 1 },
    { form := .typeDecl { name := "A", definition := 0 } },
    { form := .reference { name := "A", target := some 1 } [], parent := some 3 },
    { form := .typeDecl { name := "B", definition := 2 } }]

/-- While `A` is resolved, `A` is resolved again inside it and kept. The settings cut this off, and the outcome is
stable although it is an error. -/
theorem circularAliases_stable :
    ∃ u c₁, (Checker.resolve circularAliases (.reference 1 "A" [])).run
        { settings := ({} : Settings).withMaxReferenceDepth 3 } = .ok (u, c₁) ∧
      u.text = "error<type 'B' expands too deeply>" ∧ c₁.resolved.get? (1, "") = some u ∧
      ∀ c₂, Asked c₁ c₂ → (Checker.resolve circularAliases (.reference 1 "A" [])).run c₂ = .ok (u, c₂) := by
  obtain ⟨u, c₁, hrun, hfound⟩ := Search.exists_run_of_any
    (P := fun u => !u.isPlaceholder && u.text = "error<type 'B' expands too deeply>")
    (x := Checker.resolve circularAliases (.reference 1 "A" []))
    (s := { settings := ({} : Settings).withMaxReferenceDepth 3 }) (by decide +kernel)
  simp only [Bool.and_eq_true, Bool.not_eq_true', decide_eq_true_eq] at hfound
  obtain ⟨hu, htext⟩ := hfound
  obtain ⟨hkept, hagain⟩ := (Reached.new _).resolve_stable (.withMaxReferenceDepth .default 3) rfl hrun hu
  exact ⟨u, c₁, hrun, htext, hkept, fun c₂ hasked => hagain c₂ hasked circularAliases⟩

end Ascribe
