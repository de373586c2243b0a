import Ascribe.Proofs.Assignability.Totality
import Ascribe.Proofs.Instantiation.Registrations
import Ascribe.Proofs.Tree.WellFormed
import Ascribe.Proofs.Ty.Scope
import Ascribe.Proofs.Typing.Branches
import Ascribe.Proofs.Typing.Lockstep

/-!
# Questions made of questions

What some types have in common is found by comparing them, and what the place of a node asks for by looking at the nodes
above. If the answers behind such a question mention only what is in scope, then so does its answer, and it is there if
they are. Two things follow from this one at a time: in a well-formed tree questions are answered, and a placeholder is
not made up by the rules.

The invariant on the checker is left open: it only has to be kept when rules log instantiations with arguments in scope
(`Checker.Logging`). One that does not look at the log is (`Checker.Indifferent`).

## Key results

- `Queries.Ensures`: every question is answered in scope
- `Queries.Ensures.step`: a step of a comparison
- `Typing.common_ensures`: what some types have in common is found
- `Typing.expected_ensures`: what the place of a node asks for is found if it is for the nodes above
-/

namespace Ascribe

/-- An invariant that does not look at the log of instantiations and the counter of resolutions. -/
def Checker.Indifferent (I : Checker → Prop) : Prop :=
  ∀ {c c' : Checker}, c'.settings = c.settings → c'.memo = c.memo → c'.resolved = c.resolved → I c → I c'

variable {p : Tree} {q : Queries} {total : Prop} {scope : Scope} {I : Checker → Prop}

theorem Infer.Aside.ensures {α : Type} {x : Infer α} (hx : x.Aside) (hI : Checker.Indifferent I) :
    x.Ensures total I fun _ => True := by
  intro c hc
  obtain ⟨answer, hanswer⟩ := hx
  obtain ⟨c', hrun, hsettings, hmemo, hresolved⟩ := hanswer c
  refine ⟨fun v c'' hrun' => ?_, fun _ => ⟨_, c', hrun⟩⟩
  obtain ⟨-, rfl⟩ := Prod.mk.inj (Except.ok.inj (hrun'.symm.trans hrun))
  exact ⟨hI hsettings hmemo hresolved hc, trivial⟩

/-- An invariant that is kept when an instantiation with arguments in scope is logged and when a resolution is
counted. -/
structure Checker.Logging (scope : Scope) (I : Checker → Prop) : Prop where
  log : ∀ (call : Instantiation.Registration) {c : Checker}, (∀ t ∈ call.args, t.InScope scope) → I c →
    I { c with registry := c.registry.log call }
  count : ∀ {c : Checker}, I c → I { c with resolutions := c.resolutions + 1 }

theorem Checker.Indifferent.logging (hI : Checker.Indifferent I) : Checker.Logging scope I :=
  ⟨fun _ _ _ => hI rfl rfl rfl, hI rfl rfl rfl⟩

namespace Infer

/-- `Ensures` holds of a search that gives an answer at once and leaves a state that satisfies the invariant. -/
theorem ensures_of_run {α : Type} {x : Infer α} {answer : Checker → α} {next : Checker → Checker}
    (hrun : ∀ c, x.run c = .ok (answer c, next c)) (hnext : ∀ {c}, I c → I (next c)) :
    x.Ensures total I fun _ => True := by
  refine fun c hc => ⟨fun v c' hrun' => ?_, fun _ => ⟨_, _, hrun c⟩⟩
  obtain ⟨-, rfl⟩ := Prod.mk.inj (Except.ok.inj (hrun'.symm.trans (hrun c)))
  exact ⟨hnext hc, trivial⟩

theorem settings_ensures : Infer.settings.Ensures total I fun _ => True :=
  ensures_of_run (fun _ => rfl) id

variable (hI : Checker.Logging scope I)

include hI

theorem countResolution_ensures :
    Search.Ensures total I (modify fun c : Checker => { c with resolutions := c.resolutions + 1 }) fun _ => True :=
  ensures_of_run (fun _ => rfl) hI.count

theorem logClass_ensures (decl : NodeId) (name : String) {args : List Ty} (hargs : ∀ t ∈ args, t.InScope scope) :
    (logClass decl name args).Ensures total I fun _ => True :=
  ensures_of_run (fun _ => rfl) (hI.log (.cls decl name args) hargs)

theorem logFunction_ensures (decl : NodeId) (name : String) {args : List Ty} (hargs : ∀ t ∈ args, t.InScope scope) :
    (logFunction decl name args).Ensures total I fun _ => True :=
  ensures_of_run (fun _ => rfl) (hI.log (.function decl name args) hargs)

theorem logMethod_ensures (classKey : String) (decl : NodeId) (name : String) {args : List Ty}
    (hargs : ∀ t ∈ args, t.InScope scope) : (logMethod classKey decl name args).Ensures total I fun _ => True :=
  ensures_of_run (fun _ => rfl) (hI.log (.method classKey decl name args) hargs)

end Infer

/-- `discard` keeps `Ensures`, and nothing is known of the answer. -/
theorem Infer.discard_ensures {α : Type} {x : Infer α} (hx : x.Ensures total I fun _ => True) :
    Search.Ensures total I (discard x) fun _ => True :=
  .map (hx.mono fun _ _ => trivial)

/-- Questions about nodes and about named types are answered in scope. -/
structure Queries.FindsIn (total : Prop) (scope : Scope) (I : Checker → Prop) (q : Queries) : Prop where
  typeOf : ∀ {node}, scope.node node = true → (q.typeOf node).Ensures total I (Ty.InScope scope)
  resolve : ∀ {t : Ty} {r}, t.shape = .ref r → t.InScope scope → (q.resolve r).Ensures total I (Ty.InScope scope)

/-- Every question is answered in scope. -/
structure Queries.Ensures (total : Prop) (scope : Scope) (I : Checker → Prop) (q : Queries) : Prop
    extends q.FindsIn total scope I where
  common : ∀ {types : List Ty}, (∀ t ∈ types, t.InScope scope) →
    (q.common types).Ensures total I fun t => ∀ u ∈ t, u.InScope scope
  member : ∀ {t : Ty} {name}, t.InScope scope → (q.member t name).Ensures total I (Ty.InScope scope)
  compare : ∀ {assumed} {a e : Ty}, a.InScope scope → e.InScope scope →
    (q.compare assumed a e).Ensures total I fun _ => True
  expected : ∀ {node}, scope.node node = true → (q.expected node).Ensures total I fun t => ∀ u ∈ t, u.InScope scope

/-! ## Trees -/

namespace Tree

/-- The nodes that rules go to are in scope. If rules are to give a type in any case, the tree is well-formed and the
nodes in scope are there. -/
structure InScope (total : Prop) (scope : Scope) (p : Tree) : Prop where
  here : ∀ {id form}, p.form? id = some form → scope.node id = true
  child : ∀ {id form}, p.form? id = some form → ∀ child ∈ form.children, scope.node child = true
  owner : ∀ {id up}, p.parent? id = some up → scope.node up = true
  bound : ∀ {id form target}, p.form? id = some form → form.target? = some target → scope.node target = true
  wellFormed : total → p.WellFormed
  present : total → ∀ {id}, scope.node id = true → id < p.size

theorem WellFormed.inScope (hp : p.WellFormed) : p.InScope True (.arena p.size) where
  here hform := decide_eq_true (lt_size_of_form? hform)
  child hform child hchild := decide_eq_true (hp.linked.child_lt hform child hchild)
  owner hup := decide_eq_true (hp.owner hup)
  bound hform htarget := decide_eq_true (hp.bound hform htarget)
  wellFormed _ := hp
  present _ := of_decide_eq_true

/-- Every tree is `InScope` of `settled`, for which only the placeholder is out of scope. -/
theorem inScope_settled (p : Tree) : p.InScope False .settled :=
  ⟨fun _ => rfl, fun _ _ _ => rfl, fun _ => rfl, fun _ _ => rfl, False.elim, False.elim⟩

namespace InScope

variable (hp : p.InScope total scope)

include hp

/-- `classMember?` finds nodes in scope. -/
theorem classMember {cls : NodeId} {name : String} {isStatic : Bool} :
    ∀ id ∈ p.classMember? cls name isStatic, scope.node id = true := by
  intro id hid
  obtain ⟨form, hform, hchild⟩ := child_of_classMember? hid
  exact hp.child hform id hchild

/-- `Tree.form` finds the form of a node in scope. -/
theorem form {node : NodeId} (h : scope.node node = true) :
    (Search.ofWalk (p.form node) : Infer Form).Ensures total I fun form => p.form? node = some form := by
  have hwalk : (Search.ofWalk (p.form node) : Infer Form).Ensures total I (p.form node = .ok ·) := by
    apply Search.Ensures.ofWalk
    intro htotal
    obtain ⟨form, hform, -⟩ := form_ok (hp.present htotal h)
    exact ⟨form, hform⟩
  exact hwalk.mono fun _ => form?_eq_some_of_form

/-- `Tree.nearest` succeeds at a node in scope. -/
theorem nearest (wanted : Form → Bool) {node : NodeId} (h : scope.node node = true) :
    (Search.ofWalk (p.nearest wanted node) : Infer (Option NodeId)).Ensures total I fun _ => True := by
  refine .mono (.ofWalk fun htotal => ?_) fun _ _ => trivial
  obtain ⟨found, hfound, -⟩ := (hp.wellFormed htotal).linked.nearest_ok wanted (hp.present htotal h)
  exact ⟨found, hfound⟩

/-- `Tree.collect` succeeds at a node in scope. -/
theorem collect (wanted : Form → Bool) {node : NodeId} (h : scope.node node = true) :
    (Search.ofWalk (p.collect wanted node) : Infer (List NodeId)).Ensures total I fun _ => True :=
  .mono (.ofWalk fun htotal => (hp.wellFormed htotal).linked.collect_ok wanted (hp.present htotal h)) fun _ _ => trivial

/-- `inOptionalChain` succeeds at every node. -/
theorem inOptionalChain (node : NodeId) :
    (Search.ofWalk (p.inOptionalChain node) : Infer Bool).Ensures total I fun _ => True :=
  .mono (.ofWalk fun htotal => (hp.wellFormed htotal).linked.inOptionalChain_ok node) fun _ _ => trivial

end InScope

end Tree

/-! ## Questions made of questions -/

namespace Queries

namespace FindsIn

variable (h : q.FindsIn total scope I)

include h

theorem typesOf {nodes : List NodeId} (hnodes : ∀ n ∈ nodes, scope.node n = true) :
    (q.typesOf nodes).Ensures total I fun types => ∀ t ∈ types, t.InScope scope :=
  .mapM fun n hn => h.typeOf (hnodes n hn)

theorem typeOf? {node : Option NodeId} (hnode : ∀ n ∈ node, scope.node n = true) :
    (q.typeOf? node).Ensures total I fun t => ∀ u ∈ t, u.InScope scope :=
  .optionMapM fun n hn => h.typeOf (hnode n hn)

theorem typeOrVoid {node : Option NodeId} (hnode : ∀ n ∈ node, scope.node n = true) :
    (q.typeOrVoid node).Ensures total I (Ty.InScope scope) :=
  .bind (h.typeOf? hnode) fun _ ht => .pure (Ty.getD_inScope ht (Ty.prim_inScope .void))

theorem resolveDeep {t : Ty} (ht : t.InScope scope) : (q.resolveDeep t).Ensures total I (Ty.InScope scope) := by
  unfold Queries.resolveDeep
  split
  · next r hr => exact h.resolve (Ty.reference?_eq_some.mp hr) ht
  · exact .pure ht

theorem signatureOf {node : NodeId} (hnode : scope.node node = true) :
    (q.signatureOf node).Ensures total I (Signature.InScope scope) := by
  refine .bind (h.typeOf hnode) fun t ht => .pure ?_
  cases hs : t.signature? with
  | none => exact ⟨by simp, ht, by simp⟩
  | some s => exact Shape.inScope_fn.mp (ht.shape (Ty.signature?_eq_some.mp hs))

theorem walks : q.resolve.Walks total I (Ty.InScope scope) (Ty.InScope scope) (Method.InScope scope) where
  target := Resolver.target_ensures h.resolve
  methods hbody ht := (Shape.inScope_interface.mp (ht.shape hbody)).1
  supers hbody ht := (Shape.inScope_interface.mp (ht.shape hbody)).2

theorem interfaceMethods {body : InterfaceBody Ty} (hbody : (Shape.interface body).InScope scope) :
    (q.interfaceMethods body).Ensures total I fun methods => ∀ m ∈ methods, m.InScope scope :=
  Resolver.interfaceMethods_ensures h.walks (Shape.inScope_interface.mp hbody).1 (Shape.inScope_interface.mp hbody).2

end FindsIn

namespace Ensures

variable (h : q.Ensures total scope I)

include h

theorem expectedResolved {node : NodeId} (hnode : scope.node node = true) :
    (q.expectedResolved node).Ensures total I fun t => ∀ u ∈ t, u.InScope scope := by
  refine .bind (h.expected hnode) fun t ht => ?_
  cases t with
  | none => exact .pure (by simp)
  | some t => exact .map ((h.resolveDeep (ht t rfl).stripNullable).mono fun u hu => by simpa using hu)

theorem assignable {a e : Ty} (ha : a.InScope scope) (he : e.InScope scope) :
    (q.assignable a e).Ensures total I fun _ => True :=
  .map ((h.compare ha he).mono fun _ _ => trivial)

theorem commonType {types : List Ty} (htypes : ∀ t ∈ types, t.InScope scope) :
    (q.commonType types).Ensures total I (Ty.InScope scope) := by
  have hknown : ∀ t ∈ types.filter fun t => !t.isPlaceholder, t.InScope scope :=
    fun t ht => htypes t (List.mem_filter.mp ht).1
  unfold Queries.commonType
  dsimp only
  split
  · refine .pure ?_
    cases types with
    | nil => exact Ty.prim_inScope .never
    | cons t rest => exact htypes t List.mem_cons_self
  · split
    · next failed hfailed => exact .pure (hknown failed (List.mem_of_find?_eq_some hfailed))
    · split
      · refine .pure ?_
        split
        · exact Ty.prim_inScope .null
        · exact Ty.prim_inScope .never
      · have hcandidates : ∀ t ∈ (types.filter fun t => !t.isPlaceholder).filterMap branchCandidate?,
            t.InScope scope := by
          intro t ht
          obtain ⟨branch, hbranch, ht⟩ := List.mem_filterMap.mp ht
          unfold branchCandidate? at ht
          split at ht
          · cases ht
          · cases ht
          · next base hbase =>
            obtain rfl := Option.some.inj ht
            exact (Shape.inScope_nullable.mp ((hknown branch hbranch).shape hbase)).2
          · exact Option.some.inj ht ▸ hknown branch hbranch
        refine .bind (h.common hcandidates) fun found hfound => ?_
        cases found with
        | none => exact .pure (Ty.error_inScope rfl)
        | some t =>
          refine .pure ?_
          split
          · exact (hfound t rfl).nullable
          · exact hfound t rfl

end Ensures

/-- `step` of the `comparer` asks about types in scope only. -/
theorem Ensures.step (h : q.Ensures total scope I) {assumed : Assumptions} {a e : Ty} (ha : a.InScope scope)
    (he : e.InScope scope) : (q.comparer.step assumed a e).Ensures total I fun _ => True := by
  have hmethods {t : Ty} {body : InterfaceBody Ty} (ht : t.InScope scope) (hbody : t.shape = .interface body) :
      (q.comparer.resolve.interfaceMethods body).Ensures total I fun found =>
        ∀ m ∈ found, ∀ x ∈ m.signature.parts, x.InScope scope :=
    (h.interfaceMethods (ht.shape hbody)).mono fun found hfound m hm => Signature.inScope_iff.mp (hfound m hm).signature
  have hanswers : q.comparer.Answers total I assumed a e (Ty.InScope scope) (Ty.InScope scope) :=
    { left := fun hx => h.compare hx he
      right := fun hy => h.compare ha hy
      both := fun hx hy => h.compare hx hy
      flipped := fun hx hy => h.compare hy hx
      actualParts := (ha.shape rfl).parts
      expectedParts := (he.shape rfl).parts
      actualMethods := hmethods ha
      expectedMethods := hmethods he }
  refine Comparer.step_ensures hanswers fun _ => ?_
  exact Comparer.named_ensures h.resolve (fun _ _ _ hx hy => h.compare hx hy) ha he

end Queries

namespace Typing

/-! ## Branches -/

section Branches

variable (h : q.Ensures total scope I)

include h

theorem sharedField_ensures {others : List (StructBody Ty)} {field : Field Ty} (hfield : field.type.InScope scope)
    (hothers : ∀ body ∈ others, ∀ f ∈ body.fields, f.type.InScope scope) :
    (sharedField q others field).Ensures total I fun found => ∀ f ∈ found, f.type.InScope scope := by
  unfold sharedField
  split
  · exact .pure (by simp)
  · next found hfound =>
    have htypes : ∀ t ∈ field.type :: found.map (·.type), t.InScope scope := by
      refine List.forall_mem_cons.mpr ⟨hfield, fun t ht => ?_⟩
      obtain ⟨f, hf, rfl⟩ := List.mem_map.mp ht
      obtain ⟨body, hbody, hf⟩ := (mem_of_mapM_eq_some hfound).2 f hf
      exact hothers body hbody f (List.mem_of_find?_eq_some hf)
    refine .bind (h.common htypes) fun t ht => .pure fun f hf => ?_
    obtain ⟨u, hu, rfl⟩ := Option.map_eq_some_iff.mp hf
    exact ht u hu

theorem commonStruct_ensures {bodies : List (StructBody Ty)}
    (hbodies : ∀ body ∈ bodies, ∀ f ∈ body.fields, f.type.InScope scope) :
    (commonStruct q bodies).Ensures total I fun t => ∀ u ∈ t, u.InScope scope := by
  cases bodies with
  | nil => exact .pure (by simp)
  | cons head others =>
    rw [List.forall_mem_cons] at hbodies
    refine .bind (.filterMapM fun f hf => sharedField_ensures h (hbodies.1 f hf) hbodies.2)
      fun fields hfields => .pure ?_
    split
    · simp
    · simpa [Ty.struct] using hfields

theorem commonArguments_ensures {constructors : List (Constructed Ty)}
    (hargs : ∀ c ∈ constructors, ∀ t ∈ c.args, t.InScope scope) (slots : List Nat) :
    (commonArguments q constructors slots).Ensures total I
      fun found => ∀ args ∈ found, ∀ t ∈ args, t.InScope scope := by
  induction slots with
  | nil => exact .pure (by simp)
  | cons slot slots ih =>
    have hgiven : ∀ t ∈ (constructors.filterMap fun c => c.args[slot]?).filter fun t => !t.isNever,
        t.InScope scope := by
      intro t ht
      obtain ⟨c, hc, ht⟩ := List.mem_filterMap.mp (List.mem_filter.mp ht).1
      exact hargs c hc t (List.mem_of_getElem? ht)
    have hnever : ∀ t ∈ some Ty.never, t.InScope scope :=
      fun t ht => Option.mem_some.mp ht ▸ Ty.prim_inScope .never
    refine .iteBind (fun _ => .pure hnever) (fun _ => h.common hgiven) fun arg harg => ?_
    cases arg with
    | none => exact .pure (by simp)
    | some t =>
      refine .bind ih fun rest hrest => .pure fun args hargs => ?_
      obtain ⟨args, hmem, rfl⟩ := Option.map_eq_some_iff.mp hargs
      exact List.forall_mem_cons.mpr ⟨harg t rfl, hrest args hmem⟩

theorem commonVariant_ensures {constructors : List (Constructed Ty)}
    (hconstructors : ∀ c ∈ constructors, (Shape.constructed c).InScope scope) :
    (commonVariant q constructors).Ensures total I fun t => ∀ u ∈ t, u.InScope scope := by
  have hargs : ∀ c ∈ constructors, ∀ t ∈ c.args, t.InScope scope :=
    fun c hc => (Shape.inScope_constructed.mp (hconstructors c hc)).2.2.1
  unfold commonVariant
  split
  · exact .pure (by simp)
  · next head others =>
    split
    · exact .pure (by simp)
    · next decl hdecl =>
      have hlt : scope.node decl = true :=
        (Shape.inScope_constructed.mp (hconstructors head List.mem_cons_self)).1 decl hdecl
      split
      · exact .pure (by simp)
      · refine .bind (commonArguments_ensures h hargs _) fun args hargs => .pure fun t ht => ?_
        obtain ⟨found, hfound, rfl⟩ := Option.map_eq_some_iff.mp ht
        simpa [Ty.reference] using ⟨hlt, hargs found hfound⟩

/-- `common` of types in scope is in scope, if there is one. -/
theorem common_ensures {candidates : List Ty} (hcandidates : ∀ t ∈ candidates, t.InScope scope) :
    (common q candidates).Ensures total I fun t => ∀ u ∈ t, u.InScope scope := by
  unfold common
  cases candidates with
  | nil => exact .pure (by simp)
  | cons first rest =>
    dsimp only
    split
    · exact .pure (by simpa using hcandidates first List.mem_cons_self)
    · have hwidest : ∀ c ∈ first :: rest,
          ((first :: rest).allM fun other => q.assignable other c).Ensures total I fun _ => True :=
        fun c hc => .allM fun other hother => h.assignable (hcandidates other hother) (hcandidates c hc)
      refine .bind (.findM? hwidest) fun widest hfound => ?_
      split
      · next t => exact .pure (by simpa using hcandidates t (hfound t rfl))
      · -- none will do: resolved, they are numbers, structs, or constructors of one variant
        refine .bind (.mapM fun t ht => h.resolveDeep (hcandidates t ht)) fun resolved hresolved => ?_
        split
        · refine .pure fun t ht => ?_
          obtain ⟨kind, -, rfl⟩ := Option.map_eq_some_iff.mp ht
          exact Ty.prim_inScope kind
        · split
          · next bodies hbodies =>
            refine commonStruct_ensures h fun body hbody => ?_
            obtain ⟨t, ht, hshape⟩ := (mem_of_mapM_eq_some hbodies).2 body hbody
            exact Shape.inScope_struct.mp ((hresolved t ht).shape (Ty.structBody?_eq_some.mp hshape))
          · split
            · next constructors hconstructors =>
              refine commonVariant_ensures h fun c hc => ?_
              obtain ⟨t, ht, hshape⟩ := (mem_of_mapM_eq_some hconstructors).2 c hc
              exact (hresolved t ht).shape (Ty.constructed?_eq_some.mp hshape)
            · exact .pure (by simp)

end Branches

/-! ## Expectations -/

section Expectations

variable (hp : p.InScope total scope)

include hp

/-- `typeOf?` of an optional child is in scope. -/
theorem childType?_ensures (h : q.FindsIn total scope I) {owner : NodeId} {form : Form}
    (hform : p.form? owner = some form)
    {child : Option NodeId} {before after : List NodeId} (hchildren : form.children = before ++ child.toList ++ after) :
    (q.typeOf? child).Ensures total I fun t => ∀ u ∈ t, u.InScope scope := by
  refine h.typeOf? fun n hn => hp.child hform n ?_
  rw [hchildren]
  exact List.mem_append_left _ (List.mem_append_right _ (Option.mem_toList.mpr hn))

theorem enclosingResult_ensures (h : q.FindsIn total scope I) {node : NodeId} (hnode : scope.node node = true) :
    (enclosingResult p q node).Ensures total I fun t => ∀ u ∈ t, u.InScope scope := by
  refine .bind (hp.nearest _ hnode) fun owner _ => ?_
  split
  · exact .pure (by simp)
  · split
    · next hform => exact childType?_ensures hp h hform rfl
    · next hform => exact childType?_ensures hp h hform rfl
    · next hform => exact childType?_ensures hp h hform rfl
    · exact .pure (by simp)

theorem initParam_ensures (h : q.FindsIn total scope I) (cls : NodeId) (position : Nat) :
    (initParam p q cls position).Ensures total I fun t => ∀ u ∈ t, u.InScope scope := by
  unfold initParam
  split
  · next n args hform =>
    split
    · exact .pure (by simp)
    · next target htarget =>
      refine .bind (hp.form (hp.bound hform htarget)) fun form _ => ?_
      split
      · split
        · exact .pure (by simp)
        · split
          · next init hinit =>
            refine .bind (h.signatureOf (hp.classMember init hinit)) fun s hs => .pure fun t ht => ?_
            obtain ⟨param, hparam, rfl⟩ := Option.map_eq_some_iff.mp ht
            exact hs.params param (List.mem_of_getElem? hparam)
          · exact .pure (by simp)
      · exact .pure (by simp)
  · exact .pure (by simp)

omit hp in
theorem argumentExpected_ensures (h : q.FindsIn total scope I) {callee : NodeId} (hcallee : scope.node callee = true)
    (position : Nat) :
    (argumentExpected q callee position).Ensures total I fun t => ∀ u ∈ t, u.InScope scope := by
  refine .bind (h.typeOf hcallee) fun calleeType htype => .bind (h.resolveDeep htype.stripNullable) fun target ht => ?_
  split
  · next s hs =>
    refine .pure ?_
    split
    · intro t hparam
      obtain ⟨param, hfound, rfl⟩ := Option.map_eq_some_iff.mp hparam
      exact (Shape.inScope_fn.mp (ht.shape hs)).params param (List.mem_of_getElem? hfound)
    · simp
  · next c hc =>
    refine .pure ?_
    split
    · simp
    · intro t hparam
      obtain ⟨param, hfound, rfl⟩ := Option.map_eq_some_iff.mp hparam
      exact (Shape.inScope_constructed.mp (ht.shape hc)).2.2.2 param (List.mem_of_getElem? hfound)
  · exact .pure (by simp)

theorem operandExpected_ensures (h : q.FindsIn total scope I) {node parent : NodeId}
    (hexpected : (q.expected parent).Ensures total I fun t => ∀ u ∈ t, u.InScope scope) (op : BinaryOp)
    {lhs rhs : NodeId} (hlhs : scope.node lhs = true) (hrhs : scope.node rhs = true) :
    (operandExpected p q node parent op lhs rhs).Ensures total I fun t => ∀ u ∈ t, u.InScope scope := by
  have hsibling {sibling : NodeId} (hlt : scope.node sibling = true) : Search.Ensures total I
      (do
        if ← Search.ofWalk (p.isNumericLiteral sibling) then
          if op.isComparison then return none else q.expected parent
        else
          let t ← q.typeOf sibling
          return if t.isError then none else some t) fun t => ∀ u ∈ t, u.InScope scope := by
    refine .bind (.ofWalk fun htotal => (hp.wellFormed htotal).linked.isNumericLiteral_ok sibling) fun isLiteral _ => ?_
    split
    · split
      · exact .pure (by simp)
      · exact hexpected
    · refine .bind (h.typeOf hlt) fun t ht => .pure ?_
      split
      · simp
      · simpa using ht
  unfold operandExpected
  dsimp only
  split
  · split
    · exact .bind (h.typeOf hlhs) fun t ht => .pure (by simpa using ht.stripNullable)
    · exact .pure (by simp)
  · exact .pure (by simp)
  · exact .pure (by simp)
  · refine hsibling ?_
    split
    · exact hrhs
    · exact hlhs

/-- `expected` finds what the place of a node asks for if it does for the nodes above. -/
theorem expected_ensures (h : q.FindsIn total scope I) {node : NodeId}
    (hexpected : ∀ {up}, (total → p.height up < p.height node) → scope.node up = true →
      (q.expected up).Ensures total I fun t => ∀ u ∈ t, u.InScope scope) :
    (expected p q node).Ensures total I fun t => ∀ u ∈ t, u.InScope scope := by
  unfold expected
  split
  · exact .pure (by simp)
  · next parent hparent =>
    have hlt : scope.node parent = true := hp.owner hparent
    have hbelow (htotal : total) : p.height parent < p.height node := by
      rw [(hp.wellFormed htotal).linked.height_eq_succ hparent]
      omega
    have hresolved {up : NodeId} (hheight : total → p.height up < p.height node) (hup : scope.node up = true) :
        (q.expectedResolved up).Ensures total I fun t => ∀ u ∈ t, u.InScope scope := by
      refine .bind (hexpected hheight hup) fun t ht => ?_
      cases t with
      | none => exact .pure (by simp)
      | some t => exact .map ((h.resolveDeep (ht t rfl).stripNullable).mono fun u hu => by simpa using hu)
    have hwhen (test : Prop) [Decidable test] {x : Infer (Option Ty)}
        (hx : x.Ensures total I fun t => ∀ u ∈ t, u.InScope scope) :
        Search.Ensures total I (if test then x else pure none) fun t => ∀ u ∈ t, u.InScope scope := by
      split
      · exact hx
      · exact .pure (by simp)
    -- the cases are the forms that the node may be a child of
    split
    case h_1 v hform =>
      have hchildren : (Form.varDecl v).children = [] ++ v.type.toList ++ v.init.toList := rfl
      exact hwhen _ (childType?_ensures hp h hform hchildren)
    -- a field or an element takes its part of what its literal is asked for
    case h_2 name value hform =>
      split
      · exact .pure (by simp)
      · next literal hliteral =>
        have habove (htotal : total) : p.height literal < p.height node := by
          have hlinked := (hp.wellFormed htotal).linked
          rw [hlinked.height_eq_succ hparent, hlinked.height_eq_succ hliteral]
          omega
        refine .bind (hresolved habove (hp.owner hliteral)) fun t ht => .pure fun u hu => ?_
        obtain ⟨t, rfl, hpart⟩ := Option.bind_eq_some_iff.mp hu
        obtain ⟨body, hbody, hpart⟩ := Option.bind_eq_some_iff.mp hpart
        obtain ⟨field, hfield, rfl⟩ := Option.map_eq_some_iff.mp hpart
        have hfields := Shape.inScope_struct.mp ((ht t rfl).shape (Ty.structBody?_eq_some.mp hbody))
        exact hfields field (List.mem_of_find?_eq_some hfield)
    case h_3 elems hform =>
      refine .bind (hresolved hbelow hlt) fun t ht => ?_
      split
      · next elem helem =>
        obtain ⟨t, rfl, hshape⟩ := Option.map_eq_some_iff.mp helem
        exact .pure (by simpa using Shape.inScope_array.mp ((ht t rfl).shape hshape))
      · exact .pure (by simp)
    case h_4 elems hform =>
      split
      · exact .pure (by simp)
      · refine .bind (hresolved hbelow hlt) fun t ht => ?_
        split
        · next types htypes =>
          obtain ⟨t, rfl, hshape⟩ := Option.map_eq_some_iff.mp htypes
          refine .pure fun u hu => ?_
          exact Shape.inScope_tuple.mp ((ht t rfl).shape hshape) u (List.mem_of_getElem? hu)
        · exact .pure (by simp)
    -- a branch takes what the whole is asked for
    case h_5 => exact hwhen _ (hexpected hbelow hlt)
    case h_6 => exact hwhen _ (hexpected hbelow hlt)
    case h_7 => exact hwhen _ (hexpected hbelow hlt)
    -- a returned value or a body takes the result type that is written
    case h_8 => exact enclosingResult_ensures hp h hlt
    case h_9 => exact enclosingResult_ensures hp h hlt
    case h_10 f hform => exact hwhen _ (childType?_ensures hp h hform rfl)
    case h_11 m hform => exact hwhen _ (childType?_ensures hp h hform rfl)
    case h_12 l hform =>
      split
      · exact .pure (by simp)
      · split
        · next result hresult =>
          refine .bind (h.typeOf (hp.child hform result (by simp [Form.children, hresult]))) fun t ht => ?_
          exact .pure (by simpa using ht)
        · refine .bind (hresolved hbelow hlt) fun t ht => .pure fun u hu => ?_
          obtain ⟨t, rfl, hpart⟩ := Option.bind_eq_some_iff.mp hu
          obtain ⟨s, hs, rfl⟩ := Option.map_eq_some_iff.mp hpart
          exact (Shape.inScope_fn.mp ((ht t rfl).shape (Ty.signature?_eq_some.mp hs))).result
    -- an argument takes the type of its parameter
    case h_13 c hform =>
      split
      · exact argumentExpected_ensures h (hp.child hform c.callee (by simp [Form.children])) _
      · exact .pure (by simp)
    case h_14 cls args hform =>
      split
      · exact initParam_ensures hp h _ _
      · exact .pure (by simp)
    case h_15 target value hform =>
      split
      · refine .bind (h.typeOf (hp.child hform target (by simp [Form.children]))) fun t ht => ?_
        exact .pure (by simpa using ht)
      · exact .pure (by simp)
    case h_16 => exact hexpected hbelow hlt
    case h_17 op lhs rhs hform =>
      have hchild := hp.child hform
      exact operandExpected_ensures hp h (hexpected hbelow hlt) op (hchild lhs (by simp [Form.children]))
        (hchild rhs (by simp [Form.children]))
    case h_18 => exact .pure (by simp)

end Expectations

end Typing

end Ascribe
