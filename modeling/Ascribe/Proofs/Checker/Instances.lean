import Ascribe.Proofs.Checker.Invalidation
import Ascribe.Proofs.Ty.Canonical
import Ascribe.Proofs.Typing.Expansion

/-!
# What named types stand for is read off the types of nodes

A checker keeps two tables, one for the types of nodes and one for what named types stand for. The second can be read
off the first (`Checker.Explained`). A named type leads along aliases to a declaration (`Memo.Leads`), and it stands for
the type that is kept for that declaration, at the arguments. The types that were used on the way are in the first table
because a computation that met an open node is not kept in the second one.

The types of annotations are flat: simplification makes them so, and nothing else makes a union or a join out of what is
written. An instance of a flat type is flat unless the arguments merge or nest its members (`Ty.KeepsFlat`), which
nothing mends afterwards: with `type M<T> = T | u8`, the named type `M<u8>` stands for `u8 | u8`.

## Key results

- `Typing.expand_run_cases`: what expanding a named type may do
- `answers_explaining`: answering questions keeps the two tables in step
- `ReachedBy.types_flat`: which types a host is told are flat
-/

namespace Ascribe

variable {p : Tree} {q : Queries} {c c' : Checker} {node : NodeId} {r : Reference Ty} {v : Ty}

/-! ## Types as written -/

/-- Whether a form is a type as written. -/
def Form.isAnnotation : Form → Bool
  | .primitive _ | .arrayType _ | .nullableType _ | .unionType _ | .joinType _ | .tupleType _ => true
  | .structType _ | .classType _ | .interfaceType .. | .variantType _ | .enumType .. | .stringEnumType _ => true
  | .functionType .. | .coroutineType _ | .reference .. => true
  | _ => false

/-- Whether the type of a node is written down: the node is an annotation, a generic parameter, or the declaration of a
type that is defined by an annotation. -/
def Tree.isWritten (p : Tree) (node : NodeId) : Bool :=
  match p.form? node with
  | some (.typeDecl d) => (p.form? d.definition).any Form.isAnnotation
  | some (.genericParam ..) => true
  | some form => form.isAnnotation
  | none => false

theorem Tree.isWritten_of_isAnnotation {form : Form} (hform : p.form? node = some form)
    (h : form.isAnnotation = true) : p.isWritten node = true := by
  unfold isWritten
  rw [hform]
  cases form <;> first | exact h | cases h

theorem Ty.isFlat_orOrigin {t : Ty} (h : t.IsFlat) (node : NodeId) : (t.orOrigin node).IsFlat := by
  unfold IsFlat
  rw [shape_orOrigin]
  exact h

namespace Typing

theorem enumType_isFlat (cases : List NodeId) (repr : Option Primitive) : (enumType p cases repr).IsFlat := by
  unfold enumType
  split <;> trivial

theorem coroutineType_returns (function : NodeId) : (coroutineType q function).Returns Ty.IsFlat := by
  refine .after fun t => ?_
  split
  · split <;> exact .pure trivial
  · next e hshape => exact .pure (by rw [Ty.IsFlat, hshape]; trivial)
  · exact .pure trivial

/-- `ruleFor` an annotation that is no name gives an `IsFlat` type, whatever the answers to its questions. -/
theorem ruleFor_isFlat {form : Form} (h : form.isAnnotation = true) (hname : ∀ n args, form ≠ .reference n args)
    (node : NodeId) : (ruleFor p q node form).Returns Ty.IsFlat := by
  cases form <;> simp only [Form.isAnnotation, Bool.false_eq_true] at h <;> simp only [ruleFor]
  case unionType => exact .after fun types => .pure (Ty.simplify_isFlat _)
  case joinType => exact .after fun types => .pure (Ty.simplify_isFlat _)
  case nullableType => exact .after fun base => .pure (Ty.isFlat_nullable base)
  case arrayType | tupleType | structType | variantType => exact .after fun _ => .pure trivial
  case classType =>
    exact .after fun _ => .after fun _ => .after fun _ => .after fun _ => .pure trivial
  case interfaceType => exact .after fun _ => .after fun _ => .pure trivial
  case functionType => exact .after fun _ => .after fun _ => .after fun _ => .pure trivial
  case enumType => exact .pure (enumType_isFlat _ _)
  case coroutineType => exact coroutineType_returns _
  case reference n args => exact absurd rfl (hname n args)
  all_goals exact .pure trivial

/-- `referenceType` is a named type, or the type of the generic parameter that the name points at, so `IsFlat`. -/
theorem referenceType_isFlat {n : NameForm} {args : List NodeId} {t : Ty}
    (htype : ∀ other t c', (q.typeOf other).run c = .ok (t, c') → p.isWritten other = true → t.IsFlat)
    (hrun : (referenceType p q n args).run c = .ok (t, c')) : t.IsFlat := by
  unfold referenceType at hrun
  split at hrun
  · obtain ⟨rfl, -⟩ := Search.run_pure_eq_ok.mp hrun
    trivial
  · next target _ =>
    obtain ⟨form, c₁, hwalk, hrest⟩ := Search.run_bind_eq_ok.mp hrun
    obtain ⟨hform, rfl⟩ := Search.run_ofWalk_eq_ok.mp hwalk
    split at hrest
    · obtain ⟨types, c₂, -, hreturn⟩ := Search.run_bind_eq_ok.mp hrest
      obtain ⟨rfl, -⟩ := Search.run_pure_eq_ok.mp hreturn
      trivial
    · split at hrest
      · apply htype target t c' hrest
        unfold Tree.isWritten
        rw [Tree.form?_eq_some_of_form hform]
      · obtain ⟨rfl, -⟩ := Search.run_pure_eq_ok.mp hrest
        trivial
    · obtain ⟨rfl, -⟩ := Search.run_pure_eq_ok.mp hrest
      trivial

/-- `ruleFor` a node that `isWritten` gives an `IsFlat` type, if such nodes have flat types. -/
theorem ruleFor_isFlat_of_isWritten {form : Form} {t : Ty} (hform : p.form? node = some form)
    (hwritten : p.isWritten node = true)
    (htype : ∀ other t c', (q.typeOf other).run c = .ok (t, c') → p.isWritten other = true → t.IsFlat)
    (hrun : (ruleFor p q node form).run c = .ok (t, c')) : t.IsFlat := by
  unfold Tree.isWritten at hwritten
  rw [hform] at hwritten
  split at hwritten
  · next d heq =>
    -- a declaration has the type of its definition
    cases heq
    obtain ⟨definition, hdefinition, hannotation⟩ := (Option.any_eq_true _ _).mp hwritten
    exact htype d.definition t c' hrun (Tree.isWritten_of_isAnnotation hdefinition hannotation)
  · next name constraint heq =>
    cases heq
    obtain ⟨bound, c₁, -, hreturn⟩ := Search.run_bind_eq_ok.mp hrun
    obtain ⟨rfl, -⟩ := Search.run_pure_eq_ok.mp hreturn
    trivial
  · next heq =>
    cases heq
    cases form with
    | reference n args => exact referenceType_isFlat htype hrun
    | _ => exact ruleFor_isFlat hwritten (fun n args h => by cases h) node c t c' hrun
  · next heq => cases heq

end Typing

/-! ## Expanding a named type -/

/-- Two checkers that differ at most in their log of instantiations and their counter of resolutions. -/
structure Checker.SameBooks (c c' : Checker) : Prop where
  settings : c'.settings = c.settings
  memo : c'.memo = c.memo
  resolved : c'.resolved = c.resolved

theorem Checker.SameBooks.trans {c₁ : Checker} (h : c.SameBooks c₁) (h' : c₁.SameBooks c') : c.SameBooks c' :=
  ⟨h'.settings.trans h.settings, h'.memo.trans h.memo, h'.resolved.trans h.resolved⟩

theorem Infer.Aside.sameBooks {α : Type} {x : Infer α} {a : α} (haside : x.Aside) (hrun : x.run c = .ok (a, c')) :
    c.SameBooks c' := by
  obtain ⟨answer, hanswer⟩ := haside
  obtain ⟨c₁, hrun₁, hsettings, hmemo, hresolved⟩ := hanswer c
  obtain ⟨-, rfl⟩ := Prod.mk.inj (Except.ok.inj (hrun.symm.trans hrun₁))
  exact ⟨hsettings, hmemo, hresolved⟩

theorem Infer.Aside.discard {α : Type} {x : Infer α} (haside : x.Aside) : Infer.Aside (discard x) := by
  obtain ⟨answer, hanswer⟩ := haside
  refine ⟨fun _ => (), fun c => ?_⟩
  obtain ⟨c', hrun, hbooks⟩ := hanswer c
  refine ⟨c', ?_, hbooks⟩
  rw [Search.run_discard, hrun]
  rfl

/-- What expanding a named type may do. -/
inductive Typing.ExpandRun (p : Tree) (q : Queries) (r : Reference Ty) (c : Checker) (v : Ty) (c' : Checker) :
    Prop where
  /-- Nothing is declared that could be expanded. -/
  | undeclared (error : v.isError = true) (same : c' = c)
  /-- A generic parameter. -/
  | param {name : String} {constraint : Option NodeId} (form : p.form r.decl = .ok (.genericParam name constraint))
    (type : (q.typeOf r.decl).run c = .ok (v, c'))
  /-- The declaration is still open, or is not given as many arguments as it has parameters. -/
  | refused {t : Ty} (type : (q.typeOf r.decl).run c = .ok (t, c')) (error : v.isError = true)
  /-- The type of a declaration, at the arguments. -/
  | definition {d : TypeDeclForm} {t : Ty} {c₁ : Checker} (form : p.form r.decl = .ok (.typeDecl d))
    (type : (q.typeOf r.decl).run c = .ok (t, c₁)) (aside : c₁.SameBooks c')
    (unnamed : (t.substitute (.zip (p.genericNames d.generics) r.args)).reference? = none)
    (value : v = t.substitute (.zip (p.genericNames d.generics) r.args))
  /-- What the named type stands for that a type is declared as, at the arguments. -/
  | followed {d : TypeDeclForm} {t : Ty} {c₁ c₂ : Checker} {next : Reference Ty}
    (form : p.form r.decl = .ok (.typeDecl d)) (type : (q.typeOf r.decl).run c = .ok (t, c₁)) (aside : c₁.SameBooks c₂)
    (named : (t.substitute (.zip (p.genericNames d.generics) r.args)).reference? = some next)
    (target : (q.resolve next).run c₂ = .ok (v, c'))

theorem Typing.expand_run_cases (h : (expand p q r).run c = .ok (v, c')) : ExpandRun p q r c v c' := by
  unfold expand at h
  obtain ⟨form, c₁, hwalk, hrest⟩ := Search.run_bind_eq_ok.mp h
  obtain ⟨hform, rfl⟩ := Search.run_ofWalk_eq_ok.mp hwalk
  split at hrest
  · next d =>
    obtain ⟨t, c₂, htype, hexpand⟩ := Search.run_bind_eq_ok.mp hrest
    dsimp only at hexpand
    split at hexpand
    · next hopen =>
      obtain ⟨rfl, rfl⟩ := Search.run_pure_eq_ok.mp hexpand
      exact .refused htype (Ty.isError_of_isPlaceholder hopen)
    split at hexpand
    · obtain ⟨rfl, rfl⟩ := Search.run_pure_eq_ok.mp hexpand
      exact .refused htype rfl
    obtain ⟨_, c₃, hcount, hshaped⟩ := Search.run_bind_eq_ok.mp hexpand
    have hcounted := Infer.Aside.countResolution.sameBooks hcount
    split at hshaped
    · next body hshape =>
      have hunnamed : (t.substitute (.zip (p.genericNames d.generics) r.args)).reference? = none :=
        Ty.reference?_eq_none_iff.mpr (by simp [hshape])
      obtain ⟨s, c₄, hsettings, hlogged⟩ := Search.run_bind_eq_ok.mp hshaped
      have hread := hcounted.trans (Infer.Aside.settings.sameBooks hsettings)
      split at hlogged
      · obtain ⟨_, c₅, hlog, hreturn⟩ := Search.run_bind_eq_ok.mp hlogged
        have hwritten := (Infer.Aside.logClass r.decl d.name r.args).discard.sameBooks hlog
        obtain ⟨rfl, rfl⟩ := Search.run_pure_eq_ok.mp hreturn
        exact .definition hform htype (hread.trans hwritten) hunnamed rfl
      · obtain ⟨rfl, rfl⟩ := Search.run_pure_eq_ok.mp hlogged
        exact .definition hform htype hread hunnamed rfl
    · next next hshape => exact .followed hform htype hcounted (Ty.reference?_eq_some.mpr hshape) hshaped
    · next hcls href =>
      obtain ⟨rfl, rfl⟩ := Search.run_pure_eq_ok.mp hshaped
      exact .definition hform htype hcounted (Ty.reference?_eq_none_iff.mpr href) rfl
  · exact .param hform hrest
  · obtain ⟨rfl, rfl⟩ := Search.run_pure_eq_ok.mp hrest
    exact .undeclared rfl rfl

/-! ## Reading off what a named type stands for -/

namespace Memo

variable {m m' : Memo} {key : ReferenceKey} {t : Ty}

/-- Where a named type leads along aliases, by the types that are kept for their declarations. Named types of one key
are not told apart. -/
inductive Leads (p : Tree) (m : Memo) : ReferenceKey → Reference Ty → Prop where
  | here (r : Reference Ty) : Leads p m r.key r
  | follow {r next last : Reference Ty} {d : TypeDeclForm} {t : Ty} (form : p.form r.decl = .ok (.typeDecl d))
    (type : m.get? r.decl = some (.done t))
    (named : (t.substitute (.zip (p.genericNames d.generics) r.args)).reference? = some next)
    (rest : Leads p m next.key last) : Leads p m r.key last

/-- What a named type stands for can be read off the types that are kept for nodes: it leads to one that is declared as
no other named type. -/
def Explains (p : Tree) (m : Memo) (key : ReferenceKey) (t : Ty) : Prop :=
  ∃ r, m.Leads p key r ∧ Expansion p (fun node t => m.get? node = some (.done t)) (fun _ _ => False) r t

theorem Leads.mono (h : m.Leads p key r)
    (hkept : ∀ {node t}, m.get? node = some (.done t) → m'.get? node = some (.done t)) :
    m'.Leads p key r := by
  induction h with
  | here r => exact .here r
  | follow form type named _ ih => exact .follow form (hkept type) named ih

/-- `Explains` carries over to a memo that keeps more types. -/
theorem Explains.mono (h : m.Explains p key t)
    (hkept : ∀ {node t}, m.get? node = some (.done t) → m'.get? node = some (.done t)) : m'.Explains p key t := by
  obtain ⟨r, hleads, hexpansion⟩ := h
  refine ⟨r, hleads.mono hkept, ?_⟩
  cases hexpansion with
  | definition form type unnamed => exact .definition form (hkept type) unnamed
  | followed _ _ _ target => exact target.elim
  | param form type => exact .param form (hkept type)
  | failed error => exact .failed error

theorem Explains.failed (r : Reference Ty) (h : t.isError = true) : m.Explains p r.key t :=
  ⟨r, .here r, .failed h⟩

/-- An open node has been observed since the last mark. -/
def Disturbed (m : Memo) : Prop :=
  m.lowest.any (· < m.frames.length) = true

theorem Moves.disturbed (h : m.Moves m') (hm : m.Disturbed) : m'.Disturbed := by
  unfold Disturbed
  rw [h.frames.length]
  exact h.lowest _ hm

end Memo

/-! ## Checkers whose named types are explained -/

namespace Checker

/-- The types that are written down are flat, and what is kept for named types can be read off the types of nodes. -/
structure Explained (p : Tree) (c : Checker) : Prop where
  consistent : c.memo.Consistent
  flat : ∀ {node t}, c.memo.get? node = some (.done t) → p.isWritten node = true → t.IsFlat
  explains : ∀ {key t}, c.resolved.get? key = some t → c.memo.Explains p key t

/-- What answering a question does to a checker. -/
structure Proceeds (p : Tree) (c c' : Checker) : Prop where
  explained : c'.Explained p
  grows : c.Grows c'
  moves : c.memo.Moves c'.memo

theorem Proceeds.refl (h : c.Explained p) : c.Proceeds p c :=
  ⟨h, .refl c, .refl _⟩

theorem Proceeds.trans {c₁ : Checker} (h : c.Proceeds p c₁) (h' : c₁.Proceeds p c') : c.Proceeds p c' :=
  ⟨h'.explained, h.grows.trans h'.grows, h.moves.trans h'.moves⟩

theorem SameBooks.explained (h : c.SameBooks c') (hc : c.Explained p) : c'.Explained p := by
  refine ⟨?_, fun {node t} hdone => ?_, fun {key t} hkept => ?_⟩
  · rw [h.memo]
    exact hc.consistent
  · rw [h.memo] at hdone
    exact hc.flat hdone
  · rw [h.resolved] at hkept
    rw [h.memo]
    exact hc.explains hkept

theorem SameBooks.proceeds (h : c.SameBooks c') (hc : c.Explained p) : c.Proceeds p c' :=
  ⟨h.explained hc, ⟨h.settings, h.memo ▸ .refl _, fun hkept => h.resolved ▸ hkept⟩, h.memo ▸ .refl _⟩

end Checker

/-- Searches that keep named types explained, as a lockstep. -/
def Lockstep.explaining (p : Tree) : Lockstep Checker Checker where
  Rel x _ := ∀ c v c', c.Explained p → x.run c = .ok (v, c') → c.Proceeds p c'
  pure a := by
    intro c v c' hc hrun
    obtain ⟨-, rfl⟩ := Search.run_pure_eq_ok.mp hrun
    exact .refl hc
  throw fault := by
    intro c v c' _ hrun
    cases hrun
  bind := by
    intro α β x y k l hx hk c w c' hc hrun
    obtain ⟨v, c₁, hv, hw⟩ := Search.run_bind_eq_ok.mp hrun
    have hfirst := hx c v c₁ hc hv
    exact hfirst.trans (hk v c₁ w c' hfirst.explained hw)

theorem Lockstep.explaining_effects (p : Tree) : (Lockstep.explaining p).Effects :=
  .of_aside fun haside _ _ _ hc hrun => (haside.sameBooks hrun).proceeds hc

/-- What answers have to do with the two tables. A type that is found for a node is kept, and what is found for a named
type can be read off, unless an open node has been observed. -/
structure Queries.Explaining (p : Tree) (q : Queries) : Prop where
  inStep : q.InStep (.explaining p) q
  flat : ∀ {c node t c'}, c.Explained p → (q.typeOf node).run c = .ok (t, c') → p.isWritten node = true → t.IsFlat
  kept : ∀ {c node t c'}, c.Explained p → (q.typeOf node).run c = .ok (t, c') →
    c'.memo.get? node = some (.done t) ∨ c'.memo.Disturbed
  explains : ∀ {c r t c'}, c.Explained p → (q.resolve r).run c = .ok (t, c') →
    c'.memo.Explains p r.key t ∨ c'.memo.Disturbed

/-! ## The questions that go through a memo -/

theorem Checker.Explained.start (h : c.Explained p) (habsent : c.memo.get? node = none) :
    Checker.Explained p { c with memo := c.memo.start node } where
  consistent := h.consistent.start habsent
  flat {other t} hdone := by
    rw [Memo.get?_start] at hdone
    split at hdone
    · cases hdone
    · exact h.flat hdone
  explains {key t} hkept := by
    refine (h.explains hkept).mono fun {other u} hdone => ?_
    have hne : other ≠ node := by
      rintro rfl
      cases habsent.symm.trans hdone
    rw [Memo.get?_start, if_neg hne, hdone]

/-- `observe` of an open node keeps a checker `Explained`. -/
theorem Checker.Explained.observe (h : c.Explained p) (hopen : c.memo.get? node = some .inProgress) :
    c.Proceeds p { c with memo := c.memo.observe node } ∧ (c.memo.observe node).Disturbed := by
  have hmem := (h.consistent.inProgress node).mp hopen
  have hgrows := Memo.Grows.observe c.memo node
  refine ⟨⟨⟨h.consistent.observe node, fun hdone => ?_, fun hkept => ?_⟩, ⟨rfl, hgrows, id⟩, .observe hmem⟩, ?_⟩
  · dsimp only at hdone
    rw [Memo.get?_observe] at hdone
    exact h.flat hdone
  · exact (h.explains hkept).mono hgrows.done
  · obtain ⟨inner, frame, outer, -, -, hobserve⟩ := Memo.observe_of_mem hmem
    unfold Memo.Disturbed
    rw [hobserve]
    dsimp only
    rw [Memo.any_lower, Option.any_some, Bool.or_eq_true, decide_eq_true_iff, List.length_append, List.length_cons]
    omega

/-- `Proceeds` holds from `start` to `finish` of a node: its type is kept unless an older open node has been observed.
-/
theorem Checker.Proceeds.finish {t : Ty} {c₁ : Checker} (habsent : c.memo.get? node = none)
    (h : Checker.Proceeds p { c with memo := c.memo.start node } c₁) (hflat : p.isWritten node = true → t.IsFlat) :
    c.Proceeds p { c₁ with memo := c₁.memo.finish node t } ∧
      ((c₁.memo.finish node t).get? node = some (.done t) ∨ (c₁.memo.finish node t).Disturbed) := by
  obtain ⟨frame, rest, hframes, hnode, htainted, houter⟩ := h.moves.frames_start
  obtain ⟨hrest, hlowest, hget⟩ := Memo.finish_of_frames hframes node t
  have hnodes : c₁.memo.frames.map Frame.node = node :: rest.map Frame.node := by
    rw [hframes, List.map_cons, hnode]
  have hopen : c₁.memo.get? node = some .inProgress := by
    rw [h.grows.memo.inProgress, Memo.get?_start, if_pos rfl]
  have hgrows : c.Grows { c₁ with memo := c₁.memo.finish node t } :=
    ⟨h.grows.settings, h.grows.memo.finish habsent t, h.grows.resolved⟩
  refine ⟨⟨⟨h.explained.consistent.finish hnodes t, fun {other u} hdone hwritten => ?_, fun hkept => ?_⟩, hgrows,
    h.moves.finish t⟩, ?_⟩
  · dsimp only at hdone
    rw [hget] at hdone
    split at hdone
    · next heq =>
      subst heq
      split at hdone
      · cases hdone
      · cases hdone
        exact hflat hwritten
    · exact h.explained.flat hdone hwritten
  · -- the node was open, so no type that was kept is lost
    refine (h.explained.explains hkept).mono fun {other u} hdone => ?_
    have hne : other ≠ node := by
      rintro rfl
      cases hopen.symm.trans hdone
    dsimp only
    rw [hget, if_neg hne, hdone]
  · cases htaint : frame.isTainted with
    | false =>
      left
      rw [hget, if_pos rfl, htaint]
      rfl
    | true =>
      right
      unfold Memo.Disturbed
      rw [hlowest, hrest, houter.length]
      exact htainted htaint

/-- `Proceeds` holds from `mark` to `keepResolved`, which keeps nothing if a node has been observed that was open
before. -/
theorem Checker.Proceeds.keepResolved {t : Ty} {c₁ : Checker} {key : ReferenceKey}
    (habsent : c.resolved.get? key = none)
    (h : Checker.Proceeds p { c with memo := c.memo.mark.2 } c₁)
    (hexplains : c₁.memo.Explains p key t ∨ c₁.memo.Disturbed) :
    c.Proceeds p (c₁.keepResolved c.memo.mark.1 key t) ∧
      ((c₁.keepResolved c.memo.mark.1 key t).memo.Explains p key t ∨
        (c₁.keepResolved c.memo.mark.1 key t).memo.Disturbed) := by
  have hmemo := c₁.keepResolved_memo c.memo.mark.1 key t
  have hlength : c₁.memo.frames.length = c.memo.frames.length := h.moves.frames.length
  have hmark : c.Grows { c with memo := c.memo.mark.2 } := ⟨rfl, .mark c.memo, id⟩
  have hsame {other : ReferenceKey} {u : Ty} (hexplains : c₁.memo.Explains p other u) :
      (c₁.memo.observedOutside c.memo.mark.1).2.Explains p other u :=
    hexplains.mono (Memo.Grows.observedOutside c₁.memo c.memo.mark.1).done
  refine ⟨⟨⟨?_, fun hdone => ?_, fun {other u} hkept => ?_⟩, (hmark.trans h.grows).keepResolved habsent _ _, ?_⟩, ?_⟩
  · rw [hmemo]
    exact h.explained.consistent.observedOutside _
  · rw [hmemo] at hdone
    exact h.explained.flat hdone
  · rw [hmemo]
    unfold Checker.keepResolved at hkept
    split at hkept
    · exact hsame (h.explained.explains hkept)
    · next hleaked =>
      rw [Table.get?_insert] at hkept
      split at hkept
      · next heq =>
        cases hkept
        rw [beq_iff_eq] at heq
        subst heq
        -- if an open node had been observed, then it was open at the mark
        refine hsame (hexplains.resolve_right fun hdisturbed => hleaked ?_)
        unfold Memo.Disturbed at hdisturbed
        rw [hlength] at hdisturbed
        rw [Bool.or_eq_true]
        exact .inl hdisturbed
      · exact hsame (h.explained.explains hkept)
  · rw [hmemo]
    exact h.moves.sinceMark
  · rw [hmemo]
    refine hexplains.imp hsame fun hdisturbed => ?_
    show (Memo.lower c₁.memo.lowest c.memo.lowest).any (· < c₁.memo.frames.length) = true
    rw [Memo.any_lower, hdisturbed, Bool.true_or]

namespace Typing

variable (h : q.Explaining p)

include h

theorem typeOf_explaining (hc : c.Explained p) (hrun : (typeOf p q node).run c = .ok (v, c')) :
    c.Proceeds p c' ∧ (p.isWritten node = true → v.IsFlat) ∧
      (c'.memo.get? node = some (.done v) ∨ c'.memo.Disturbed) := by
  obtain ⟨hdone, rfl⟩ | ⟨hopen, rfl⟩ | ⟨habsent, form, t, c₁, hform, hrule, rfl, rfl⟩ := typeOf_run_cases hrun
  · exact ⟨.refl hc, hc.flat hdone, .inl hdone⟩
  · rw [typeOf_run_open hopen] at hrun
    obtain ⟨rfl, -⟩ := Prod.mk.inj (Except.ok.inj hrun)
    obtain ⟨hproceeds, hdisturbed⟩ := hc.observe hopen
    exact ⟨hproceeds, fun _ => trivial, .inr hdisturbed⟩
  · have hstart := hc.start habsent
    have hrel := ruleFor_rel h.inStep p (Lockstep.explaining_effects p) node form
    have hproceeds := hrel _ t c₁ hstart hrule
    have hflat (hwritten : p.isWritten node = true) : (t.orOrigin node).IsFlat := by
      apply Ty.isFlat_orOrigin
      exact ruleFor_isFlat_of_isWritten (Tree.form?_eq_some_of_form hform) hwritten
        (fun other u c' => h.flat hstart) hrule
    obtain ⟨hfinish, hkept⟩ := hproceeds.finish habsent hflat
    exact ⟨hfinish, hflat, hkept⟩

theorem expand_explaining (hc : c.Explained p) (hrun : (expand p q r).run c = .ok (v, c')) :
    c'.memo.Explains p r.key v ∨ c'.memo.Disturbed := by
  cases expand_run_cases hrun with
  | undeclared error => exact .inl (.failed r error)
  | refused _ error => exact .inl (.failed r error)
  | param form type => exact (h.kept hc type).imp_left fun hkept => ⟨r, .here r, .param form hkept⟩
  | definition form type aside unnamed value =>
    rw [aside.memo, value]
    exact (h.kept hc type).imp_left fun hkept => ⟨r, .here r, .definition form hkept unnamed⟩
  | followed form type aside named target =>
    have hc₁ := (h.inStep.typeOf r.decl _ _ _ hc type).explained
    have hc₂ := aside.explained hc₁
    have hproceeds := h.inStep.resolve _ _ _ _ hc₂ target
    -- what was observed before the alias is followed is observed afterwards
    rcases h.kept hc type with hkept | hdisturbed
    · refine (h.explains hc₂ target).imp_left fun ⟨last, hleads, hexpansion⟩ => ?_
      rw [← aside.memo] at hkept
      exact ⟨last, .follow form (hproceeds.grows.memo.done hkept) named hleads, hexpansion⟩
    · rw [← aside.memo] at hdisturbed
      exact .inr (hproceeds.moves.disturbed hdisturbed)

theorem resolve_explaining {references : Nat} (hc : c.Explained p)
    (hrun : (resolve p q references r).run c = .ok (v, c')) :
    c.Proceeds p c' ∧ (c'.memo.Explains p r.key v ∨ c'.memo.Disturbed) := by
  obtain ⟨hkept, rfl⟩ | ⟨hnew, hdeep, rfl⟩ | ⟨hnew, -, c₁, hexpand, rfl⟩ := resolve_run_cases hrun
  · exact ⟨.refl hc, .inl (hc.explains hkept)⟩
  · rw [resolve_run_deep hnew hdeep] at hrun
    obtain ⟨rfl, -⟩ := Prod.mk.inj (Except.ok.inj hrun)
    exact ⟨.refl hc, .inl (.failed r rfl)⟩
  · have hmark : Checker.Explained p { c with memo := c.memo.mark.2 } :=
      ⟨hc.consistent.mark, hc.flat, fun hkept => (hc.explains hkept).mono (Memo.Grows.mark c.memo).done⟩
    have hproceeds := expand_rel h.inStep p (Lockstep.explaining_effects p) r _ v c₁ hmark hexpand
    exact hproceeds.keepResolved hnew (expand_explaining h hmark hexpand)

end Typing

/-- `answers` are `Explaining`: they keep the two tables in step, however deep the questions go. -/
theorem answers_explaining (p : Tree) (depth references : Nat) : (answers p depth references).Explaining p := by
  induction depth generalizing references with
  | zero =>
    refine ⟨Queries.exhausted_inStep, ?_, ?_, ?_⟩
    all_goals
      intro c _ t c' _ hrun
      cases hrun
  | succ depth ih =>
    rw [answers_succ]
    refine ⟨Queries.above_inStep (ih references).inStep (fun node c v c' hc hrun => ?_) fun r c v c' hc hrun => ?_,
      fun hc hrun => ?_, fun hc hrun => ?_, fun hc hrun => ?_⟩
    · exact (Typing.typeOf_explaining (ih references) hc hrun).1
    · exact (Typing.resolve_explaining (ih (references + 1)) hc hrun).1
    · exact (Typing.typeOf_explaining (ih references) hc hrun).2.1
    · exact (Typing.typeOf_explaining (ih references) hc hrun).2.2
    · exact (Typing.resolve_explaining (ih (references + 1)) hc hrun).2

/-! ## Sessions -/

theorem Checker.Explained.new (p : Tree) (settings : Settings) : Checker.Explained p { settings } where
  consistent := .empty
  flat hdone := by cases (NodeMap.get?_empty _).symm.trans hdone
  explains hkept := by cases hkept

/-- A checker is `Explained` after any questions about a tree. -/
theorem ReachedBy.explained (h : ReachedBy (Operation.On p) c) : c.Explained p := by
  induction h with
  | new settings => exact .new p settings
  | @step c c' _ op on run ih =>
    cases op with
    | ask about query =>
      obtain rfl : about = p := on
      simp only [Operation.perform, Query.run_ask] at run
      exact (Query.askOf_rel (answers_explaining about _ 0).inStep about query _ _ _ ih run).explained
    | invalidate about node =>
      obtain ⟨nodes, rfl⟩ := Checker.invalidate_run run
      refine ⟨ih.consistent.removeAll nodes, fun {other t} hdone => ?_, fun hkept => ?_⟩
      · rcases Memo.get?_removeAll_cases c.memo nodes other with hnone | hsame
        · cases hnone.symm.trans hdone
        · exact ih.flat (hsame.symm.trans hdone)
      · cases hkept
    | clear =>
      obtain ⟨-, rfl⟩ := Prod.mk.inj (Except.ok.inj run)
      exact .new p c.settings
    | register change =>
      obtain ⟨-, rfl⟩ := Prod.mk.inj (Except.ok.inj run)
      exact ⟨ih.consistent, ih.flat, ih.explains⟩

/-- `resolve` tells a host of a named type what the memo `Explains`. -/
theorem Checker.resolve_explains (h : ReachedBy (Operation.On p) c)
    (hrun : (resolve p (.of (.ref r))).run c = .ok (v, c')) : c'.Explained p ∧ c'.memo.Explains p r.key v := by
  rw [resolve, run_queries_bind] at hrun
  have hanswers := answers_explaining p (questionDepth p c.settings) 0
  have hproceeds := hanswers.inStep.resolve r c v c' h.explained hrun
  refine ⟨hproceeds.explained, (hanswers.explains h.explained hrun).resolve_right fun hdisturbed => ?_⟩
  -- no node is open, so none can have been observed
  unfold Memo.Disturbed at hdisturbed
  rw [hproceeds.moves.frames.length, h.reached.idle.frames] at hdisturbed
  simp at hdisturbed

/-- What the last named type along aliases may stand for, by the types that are kept for nodes. -/
inductive Memo.Ends (p : Tree) (m : Memo) (last : Reference Ty) (t : Ty) : Prop where
  | error (isError : t.isError = true)
  /-- A generic parameter. -/
  | param {name : String} {constraint : Option NodeId} (form : p.form last.decl = .ok (.genericParam name constraint))
    (flat : t.IsFlat)
  /-- The type that is kept for a declaration, at the arguments. If an annotation defines it, then it is flat, and at
  the arguments it is so exactly if they keep it flat. -/
  | definition {d : TypeDeclForm} {u : Ty} (form : p.form last.decl = .ok (.typeDecl d))
    (kept : m.get? last.decl = some (.done u)) (value : t = u.substitute (.zip (p.genericNames d.generics) last.args))
    (flat : (p.form? d.definition).any Form.isAnnotation = true →
      u.IsFlat ∧ (t.IsFlat ↔ u.KeepsFlat (.zip (p.genericNames d.generics) last.args)))

/-- Which types are `IsFlat`. After any questions about a tree, the type of an annotation is flat. A named type `Leads`
along aliases to a last one, and stands for a flat type or for an instance of one, which is flat exactly if the
arguments put no union in place of a member of a union and keep the members apart, and likewise for joins. -/
theorem ReachedBy.types_flat (h : ReachedBy (Operation.On p) c) :
    (∀ node form t c', p.form? node = some form → form.isAnnotation = true →
      (Checker.typeOf p node).run c = .ok (t, c') → t.IsFlat) ∧
    ∀ r t c', (Checker.resolve p (.of (.ref r))).run c = .ok (t, c') →
      ∃ last, c'.memo.Leads p r.key last ∧ c'.memo.Ends p last t := by
  constructor
  · intro node form t c' hform hannotation hrun
    rw [Checker.typeOf, Checker.run_queries_bind] at hrun
    exact (answers_explaining p _ 0).flat h.explained hrun (Tree.isWritten_of_isAnnotation hform hannotation)
  · intro r t c' hrun
    obtain ⟨hc', last, hleads, hexpansion⟩ := Checker.resolve_explains h hrun
    refine ⟨last, hleads, ?_⟩
    cases hexpansion with
    | failed error => exact .error error
    | followed _ _ _ target => exact target.elim
    | param form type =>
      refine .param form (hc'.flat type ?_)
      rw [Tree.isWritten, Tree.form?_eq_some_of_form form]
    | definition form type unnamed =>
      refine .definition form type rfl fun hannotation => ?_
      have hflat := hc'.flat type (by rw [Tree.isWritten, Tree.form?_eq_some_of_form form]; exact hannotation)
      exact ⟨hflat, Ty.isFlat_substitute_iff hflat⟩

/-- A unit with the declaration `type M<T> = T | u8`. -/
def orByte : Tree where
  nodes := #[
    { form := .genericParam "T" none, parent := some 4 },
    { form := .reference { name := "T", target := some 0 } [], parent := some 3 },
    { form := .primitive .u8, parent := some 3 },
    { form := .unionType [1, 2], parent := some 4 },
    { form := .typeDecl { name := "M", generics := [0], definition := 3 }, parent := some 5 },
    { form := .compilationUnit [4] }]

/-- The named type `M` at an argument. -/
def orByteOf (arg : Ty) : Reference Ty :=
  ⟨4, "M", [arg]⟩

/-- The annotation `T | u8` has a flat type, after which `M<string>` is resolved. -/
theorem orByte_types :
    ∃ t c u c', ReachedBy (Operation.On orByte) {} ∧ (Checker.typeOf orByte 3).run {} = .ok (t, c) ∧
      t.text = "T | u8" ∧ t.IsFlat ∧ ReachedBy (Operation.On orByte) c ∧
      (Checker.resolve orByte (.of (.ref (orByteOf .string)))).run c = .ok (u, c') ∧ u.text = "string | u8" ∧
      ∃ last, c'.memo.Leads orByte (orByteOf .string).key last ∧ c'.memo.Ends orByte last u := by
  let session : Infer (String × String) := do
    let t ← Checker.typeOf orByte 3
    let u ← Checker.resolve orByte (.of (.ref (orByteOf .string)))
    return (t.text, u.text)
  obtain ⟨answer, c₂, hsession, hanswer⟩ := Search.exists_run_of_any (x := session) (s := {})
    (P := fun answer => answer == ("T | u8", "string | u8")) (by decide +kernel)
  obtain ⟨t, c, ht, hrest⟩ := Search.run_bind_eq_ok.mp hsession
  obtain ⟨u, c', hu, hreturn⟩ := Search.run_bind_eq_ok.mp hrest
  obtain ⟨rfl, rfl⟩ := Search.run_pure_eq_ok.mp hreturn
  obtain ⟨httext, hutext⟩ := Prod.mk.inj (beq_iff_eq.mp hanswer)
  have hnew : ReachedBy (Operation.On orByte) {} := .new {}
  have hc : ReachedBy (Operation.On orByte) c := by
    refine hnew.step (.ask orByte (.typeOf 3)) rfl ?_
    show (discard (Checker.typeOf orByte 3)).run {} = .ok ((), c)
    rw [Search.run_discard, ht]
    rfl
  obtain ⟨htypes, -⟩ := ReachedBy.types_flat hnew
  obtain ⟨-, hresolved⟩ := ReachedBy.types_flat hc
  exact ⟨t, c, u, _, hnew, ht, httext, htypes 3 _ t c rfl rfl ht, hc, hu, hutext, hresolved _ u _ hu⟩

/-- Instances need not be flat: `M<u8>` stands for `u8 | u8`, which names a member twice, and so does `M<string | u8>`,
which has a union for a member. -/
theorem orByte_merges :
    ∃ t c₁ u c₂, (Checker.resolve orByte (.of (.ref (orByteOf (.prim .u8))))).run {} = .ok (t, c₁) ∧
      t.text = "u8 | u8" ∧ ¬ t.IsFlat ∧
      (Checker.resolve orByte (.of (.ref (orByteOf (.union [.string, .prim .u8]))))).run c₁ = .ok (u, c₂) ∧
      u.text = "string | u8 | u8" ∧ ¬ u.IsFlat := by
  let session : Infer (Ty × Ty) := do
    let t ← Checker.resolve orByte (.of (.ref (orByteOf (.prim .u8))))
    let u ← Checker.resolve orByte (.of (.ref (orByteOf (.union [.string, .prim .u8]))))
    return (t, u)
  obtain ⟨answer, c₂, hsession, hanswer⟩ := Search.exists_run_of_any (x := session) (s := {})
    (P := fun answer => (answer.1.text == "u8 | u8" && decide (¬ answer.1.IsFlat)) &&
      (answer.2.text == "string | u8 | u8" && decide (¬ answer.2.IsFlat))) (by decide +kernel)
  obtain ⟨t, c₁, ht, hrest⟩ := Search.run_bind_eq_ok.mp hsession
  obtain ⟨u, c₂', hu, hreturn⟩ := Search.run_bind_eq_ok.mp hrest
  obtain ⟨rfl, rfl⟩ := Search.run_pure_eq_ok.mp hreturn
  simp only [Bool.and_eq_true, beq_iff_eq, decide_eq_true_iff] at hanswer
  obtain ⟨⟨httext, htflat⟩, hutext, huflat⟩ := hanswer
  exact ⟨t, c₁, u, _, ht, httext, htflat, hu, hutext, huflat⟩

end Ascribe
