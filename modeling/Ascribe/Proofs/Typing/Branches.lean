import Ascribe.Proofs.Assignability.Merging
import Ascribe.Proofs.Assignability.StepSpec
import Ascribe.Typing.Branches

/-!
# The common type of branches is above them

The common type of several types is found by merging them, field by field and argument by argument. If every
answer it rests on is right, then so is the common type: all types can be assigned to it. `Queries.Sound` says what
right answers are, for a relation that contains whatever the rules justify from it.

## Key results

- `Typing.common_sound`: one level of merging, from the answers one level below
- `Queries.Sound.commonType`: every branch can be assigned to the common type of the branches
-/

namespace Ascribe

open Assignability

/-- `mapM` finds something for each element of a list, and nothing besides. -/
theorem mem_of_mapM_eq_some {α β : Type} {g : α → Option β} {xs : List α} {ys : List β} (h : xs.mapM g = some ys) :
    (∀ x ∈ xs, ∃ y ∈ ys, g x = some y) ∧ ∀ y ∈ ys, ∃ x ∈ xs, g x = some y := by
  induction xs generalizing ys with
  | nil =>
    obtain rfl := Option.some.inj h
    simp
  | cons x rest ih =>
    rw [List.mapM_cons] at h
    obtain ⟨y, hy, h⟩ := Option.bind_eq_some_iff.mp h
    obtain ⟨others, hothers, h⟩ := Option.bind_eq_some_iff.mp h
    obtain rfl := Option.some.inj h
    obtain ⟨hleft, hright⟩ := ih hothers
    constructor
    · rw [List.forall_mem_cons]
      refine ⟨⟨y, List.mem_cons_self, hy⟩, fun x' hx' => ?_⟩
      obtain ⟨y', hy', hxy⟩ := hleft x' hx'
      exact ⟨y', List.mem_cons_of_mem y hy', hxy⟩
    · rw [List.forall_mem_cons]
      refine ⟨⟨x, List.mem_cons_self, hy⟩, fun y' hy' => ?_⟩
      obtain ⟨x', hx', hxy⟩ := hright y' hy'
      exact ⟨x', List.mem_cons_of_mem x hx', hxy⟩

/-- The answers are right: named types stand for what `f` says, types that are found to be assignable are in `R`, and
common types are above what they are common to. -/
structure Queries.Sound (q : Queries) (f : Unfolding) (R : Ty → Ty → Prop) : Prop where
  resolve : ∀ r, Search.Returns (q.resolve r) (· = f r)
  compare : ∀ a e, Judges False (R a e) (q.compare [] a e)
  common : ∀ types, Mergeable f types →
    (q.common types).Returns fun found => ∀ t, found = some t → UpperBound f R types t

namespace Queries.Sound

variable {q : Queries} {f : Unfolding} {R : Ty → Ty → Prop} (hq : q.Sound f R)

include hq

theorem resolveDeep (t : Ty) : (q.resolveDeep t).Returns (· = f.once t) := by
  unfold Queries.resolveDeep
  split
  · next r href =>
    rw [Unfolding.once, href]
    exact hq.resolve r
  · next href =>
    rw [Unfolding.once, href]
    exact .pure rfl

theorem assignable (a e : Ty) : (q.assignable a e).Returns (Between False (R a e)) :=
  .map (hq.compare a e)

end Queries.Sound

namespace Typing

variable {q : Queries} {f : Unfolding} {R : Ty → Ty → Prop} (hq : q.Sound f R)
  {types : List Ty} (hmerge : Mergeable f types)

/-! ## Structs -/

section Structs

variable {bodies : List (StructBody Ty)}
  (hbodies : ∀ body ∈ bodies, ∃ x ∈ types, (f.meaning x).structBody? = some body)

include hmerge hbodies

/-- The fields of one name in structs that are merged are `Mergeable` in turn. -/
theorem mergeable_fields {name : String} {fields : List (Field Ty)}
    (hfields : ∀ field ∈ fields, ∃ body ∈ bodies, body.field? name = some field) :
    Mergeable f (fields.map (·.type)) := by
  refine hmerge.of_forall ?_
  simp only [List.forall_mem_map]
  intro field hfield found hfound
  obtain ⟨body, hbody, hname⟩ := hfields field hfield
  obtain ⟨body', hbody', hname'⟩ := hfields found hfound
  obtain ⟨x, hx, hxbody⟩ := hbodies body hbody
  obtain ⟨y, hy, hybody⟩ := hbodies body' hbody'
  have hnamed : field.name = name := by simpa using List.find?_some hname
  exact .fields (.branches hx hy) hxbody hybody (List.mem_of_find?_eq_some hname) (hnamed.symm ▸ hname')

include hq

/-- `sharedField` is above the fields of its name. -/
theorem sharedField_sound {others : List (StructBody Ty)} {head : StructBody Ty} (hsplit : bodies = head :: others)
    {field : Field Ty} (hfield : field ∈ head.fields) :
    (sharedField q others field).Returns fun shared => ∀ r, shared = some r →
      ∀ body ∈ bodies, ∃ found, body.field? r.name = some found ∧ R found.type r.type := by
  subst hsplit
  obtain ⟨x, hx, hxbody⟩ := hbodies head List.mem_cons_self
  have hself : head.field? field.name = some field :=
    StructBody.field?_of_mem hfield (hmerge.fields (.branches hx hx) hxbody)
  unfold sharedField
  split
  · exact .pure nofun
  · next found hfound =>
    obtain ⟨hleft, hright⟩ := mem_of_mapM_eq_some hfound
    have hfields : Mergeable f ((field :: found).map (·.type)) := by
      have hnamed : ∀ g ∈ field :: found, ∃ body ∈ head :: others, body.field? field.name = some g := by
        rw [List.forall_mem_cons]
        refine ⟨⟨head, List.mem_cons_self, hself⟩, fun g hg => ?_⟩
        obtain ⟨body, hbody, hname⟩ := hright g hg
        exact ⟨body, List.mem_cons_of_mem head hbody, hname⟩
      exact mergeable_fields hmerge hbodies hnamed
    refine .bind (hq.common _ hfields) fun common hcommon => .pure ?_
    intro r hr
    obtain ⟨t, rfl, rfl⟩ := Option.map_eq_some_iff.mp hr
    have habove := (hcommon t rfl).above
    simp only [List.forall_mem_map, List.forall_mem_cons] at habove ⊢
    refine ⟨⟨field, hself, habove.1⟩, fun body hbody => ?_⟩
    obtain ⟨g, hg, hname⟩ := hleft body hbody
    exact ⟨g, hname, habove.2 g hg⟩

/-- `commonStruct` is a struct of shared fields, and `FieldsFit` holds of every struct and it. -/
theorem commonStruct_sound :
    (commonStruct q bodies).Returns fun found => ∀ t, found = some t →
      ∃ fields, t = .struct fields true ∧ ∀ body ∈ bodies, FieldsFit R body ⟨fields, true⟩ := by
  unfold commonStruct
  split
  · exact .pure nofun
  · next head others =>
    have hshared (field : Field Ty) (hfield : field ∈ head.fields) :=
      sharedField_sound hq hmerge hbodies rfl hfield
    refine .bind (.filterMapM hshared) fun fields hfields => .pure ?_
    intro t ht
    split at ht
    · exact nomatch ht
    · obtain rfl := Option.some.inj ht
      refine ⟨fields, rfl, fun body hbody field hfield => ?_⟩
      obtain ⟨_, _, hfit⟩ := hfields field hfield
      exact hfit body hbody

end Structs

/-! ## Constructors -/

/-- The arguments of all constructors at a place fit a type. -/
def FitAt (R : Ty → Ty → Prop) (constructors : List (Constructed Ty)) (place : Nat) (t : Ty) : Prop :=
  ∀ c ∈ constructors, ∀ u, c.args[place]? = some u → Fits R u t

/-- The arguments of constructors at one place, apart from `never`. -/
def givenAt (constructors : List (Constructed Ty)) (place : Nat) : List Ty :=
  (constructors.filterMap fun c => c.args[place]?).filter fun t => !t.isNever

theorem mem_givenAt {constructors : List (Constructed Ty)} {place : Nat} {u : Ty} :
    u ∈ givenAt constructors place ↔ (∃ c ∈ constructors, c.args[place]? = some u) ∧ u.isNever = false := by
  simp [givenAt]

section Constructors

variable {constructors : List (Constructed Ty)} {decl : NodeId}
  (hleft : ∀ x ∈ types, ∃ c ∈ constructors, (f.meaning x).constructed? = some c)
  (hright : ∀ c ∈ constructors, ∃ x ∈ types, (f.meaning x).constructed? = some c)
  (hdecl : ∀ c ∈ constructors, c.decl = some decl)
  (hdiffer : ∃ x ∈ types, ∃ y ∈ types, x.same y = false)

include hmerge hright in
/-- The arguments of merged constructors at one place, `givenAt`, are `Mergeable` in turn. -/
theorem mergeable_givenAt (place : Nat) : Mergeable f (givenAt constructors place) := by
  refine hmerge.of_forall fun u hu v hv => ?_
  obtain ⟨⟨c, hc, hcu⟩, -⟩ := mem_givenAt.mp hu
  obtain ⟨⟨c', hc', hcv⟩, -⟩ := mem_givenAt.mp hv
  obtain ⟨x, hx, hxc⟩ := hright c hc
  obtain ⟨y, hy, hyc⟩ := hright c' hc'
  exact .arguments (.branches hx hy) hxc hyc hcu hcv

include hmerge hleft hdecl hdiffer

/-- Constructors that are merged have no `reference?`: they are given as such, since not all of them are the same. -/
theorem reference?_of_merged {x : Ty} (hx : x ∈ types) : x.reference? = none := by
  obtain ⟨y, hy, hxy⟩ := exists_differs hdiffer x
  obtain ⟨c, hc, hxc⟩ := hleft x hx
  obtain ⟨c', hc', hyc⟩ := hleft y hy
  exact (hmerge.constructors (.branches hx hy) hxy hxc hyc (hdecl c hc) (hdecl c' hc')).1

include hright

/-- Constructors that are merged have as many arguments, which `SharePlace`. -/
theorem sharePlace_of_merged {c c' : Constructed Ty} (hc : c ∈ constructors) (hc' : c' ∈ constructors) :
    c.args.length = c'.args.length ∧ ∀ {place : Nat} {u v : Ty}, c.args[place]? = some u →
      c'.args[place]? = some v → SharePlace f u v := by
  obtain ⟨x, hx, hxc⟩ := hright c hc
  obtain ⟨y, hy, hyc⟩ := hright c' hc'
  cases hsame : x.same y with
  | false => exact (hmerge.constructors (.branches hx hy) hsame hxc hyc (hdecl c hc) (hdecl c' hc')).2
  | true =>
    rw [Unfolding.meaning_of_unnamed (reference?_of_merged hmerge hleft hdecl hdiffer hx)] at hxc
    rw [Unfolding.meaning_of_unnamed (reference?_of_merged hmerge hleft hdecl hdiffer hy)] at hyc
    have herase := congrArg Ty.constructed? ((Ty.same_iff_erase_eq x y).mp hsame)
    rw [Ty.constructed?_erase, Ty.constructed?_erase, hxc, hyc] at herase
    have hargs : c.args.map Ty.erase = c'.args.map Ty.erase :=
      congrArg Constructed.args (Option.some.inj herase)
    refine ⟨by simpa using congrArg List.length hargs, fun {place u v} hu hv => ?_⟩
    have hplace := congrArg (·[place]?) hargs
    simp only [List.getElem?_map, hu, hv, Option.map_some, Option.some.injEq] at hplace
    exact .inr (.inr (.inl ((Ty.same_iff_erase_eq u v).mpr hplace)))

/-- An `UpperBound` of the arguments at one place is in `FitAt`. -/
theorem fitAt_of_upperBound {place : Nat} {t : Ty} (h : UpperBound f R (givenAt constructors place) t) :
    FitAt R constructors place t := by
  intro c hc u hu
  cases hnever : u.isNever with
  | true => exact .inr (.inl hnever)
  | false =>
    refine h.fits (fun v hv w hw => ?_) (mem_givenAt.mpr ⟨⟨c, hc, hu⟩, hnever⟩)
    obtain ⟨⟨c₁, hc₁, hv⟩, hv'⟩ := mem_givenAt.mp hv
    obtain ⟨⟨c₂, hc₂, hw⟩, hw'⟩ := mem_givenAt.mp hw
    have hshare := (sharePlace_of_merged hmerge hleft hright hdecl hdiffer hc₁ hc₂).2 hv hw
    simpa [SharePlace, hv', hw'] using hshare

include hq

/-- `commonArguments` are in `FitAt` with the arguments of every constructor. -/
theorem commonArguments_sound (places : List Nat) :
    (commonArguments q constructors places).Returns fun found => ∀ args, found = some args →
      List.Forall₂ (FitAt R constructors) places args := by
  induction places with
  | nil =>
    refine .pure fun args hargs => ?_
    obtain rfl := Option.some.inj hargs
    exact .nil
  | cons place rest ih =>
    have hfinish {t : Ty} (hfit : FitAt R constructors place t) :
        Search.Returns (do return (← commonArguments q constructors rest).map (t :: ·)) fun found =>
          ∀ args, found = some args → List.Forall₂ (FitAt R constructors) (place :: rest) args := by
      refine .bind ih fun found hfound => .pure fun args hargs => ?_
      obtain ⟨args, rfl, rfl⟩ := Option.map_eq_some_iff.mp hargs
      exact .cons hfit (hfound args rfl)
    unfold commonArguments
    change Search.Returns (if (givenAt constructors place).isEmpty then _ else q.common (givenAt _ _) >>= _) _
    split
    · next hempty =>
      rw [pure_bind]
      refine hfinish fun c hc u hu => .inr (.inl ?_)
      by_contra hnever
      have hgiven := mem_givenAt.mpr ⟨⟨c, hc, hu⟩, Bool.eq_false_of_not_eq_true hnever⟩
      rw [List.isEmpty_iff.mp hempty] at hgiven
      exact nomatch hgiven
    · refine .bind (hq.common _ (mergeable_givenAt hmerge hright place)) fun common hcommon => ?_
      cases common with
      | none => exact .pure nofun
      | some t => exact hfinish (fitAt_of_upperBound hmerge hleft hright hdecl hdiffer (hcommon t rfl))

end Constructors

theorem foldl_max_eq {lengths : List Nat} {n : Nat} (h : ∀ k ∈ lengths, k = n) : lengths.foldl max n = n := by
  induction lengths with
  | nil => rfl
  | cons k rest ih =>
    rw [List.forall_mem_cons] at h
    rw [List.foldl_cons, h.1, Nat.max_self]
    exact ih h.2

include hq hmerge

/-- `commonVariant` is a variant that the types are constructors of, at arguments that fit. -/
theorem commonVariant_sound {constructors : List (Constructed Ty)}
    (hleft : ∀ x ∈ types, ∃ c ∈ constructors, (f.meaning x).constructed? = some c)
    (hright : ∀ c ∈ constructors, ∃ x ∈ types, (f.meaning x).constructed? = some c)
    (hdiffer : ∃ x ∈ types, ∃ y ∈ types, x.same y = false) :
    (commonVariant q constructors).Returns fun found => ∀ t, found = some t →
      ∃ decl name args, t = .reference decl name args ∧ ∀ x ∈ types, ∃ c, x.constructed? = some c ∧
        c.decl = some decl ∧ List.Forall₂ (Fits R) c.args args := by
  unfold commonVariant
  split
  · exact .pure nofun
  · next head others =>
    split
    · exact .pure nofun
    · next decl hhead =>
      dsimp only
      split
      · exact .pure nofun
      · next hothers =>
        have hdecl : ∀ c ∈ head :: others, c.decl = some decl := by
          rw [List.forall_mem_cons]
          exact ⟨hhead, by simpa using hothers⟩
        have hlength {c : Constructed Ty} (hc : c ∈ head :: others) : c.args.length = head.args.length :=
          (sharePlace_of_merged hmerge hleft hright hdecl hdiffer hc List.mem_cons_self).1
        have harity : ((head :: others).map (·.args.length)).foldl max 0 = head.args.length := by
          rw [List.map_cons, List.foldl_cons, Nat.zero_max]
          refine foldl_max_eq ?_
          simpa using fun c hc => hlength (List.mem_cons_of_mem head hc)
        rw [harity]
        refine .bind (commonArguments_sound hq hmerge hleft hright hdecl hdiffer _) fun found hfound => .pure ?_
        intro t ht
        obtain ⟨args, rfl, rfl⟩ := Option.map_eq_some_iff.mp ht
        refine ⟨decl, head.variantName, args, rfl, fun x hx => ?_⟩
        obtain ⟨c, hc, hxc⟩ := hleft x hx
        rw [Unfolding.meaning_of_unnamed (reference?_of_merged hmerge hleft hdecl hdiffer hx)] at hxc
        refine ⟨c, hxc, hdecl c hc, ?_⟩
        -- both lists of arguments have one for each place
        obtain ⟨hargs, hfit⟩ := List.forall₂_iff_get.mp (hfound args rfl)
        rw [List.length_range] at hargs
        refine List.forall₂_iff_get.mpr ⟨(hlength hc).trans hargs, fun place hplace hplace' => ?_⟩
        have hrange : place < (List.range head.args.length).length := by
          rw [List.length_range, ← hlength hc]
          exact hplace
        have hu := hfit place hrange hplace' c hc (c.args.get ⟨place, hplace⟩)
        simp only [List.get_eq_getElem, List.getElem_range, List.getElem?_eq_getElem hplace] at hu ⊢
        exact hu trivial

omit hq hmerge in
/-- The number that `Primitive.widen` gives for what types stand for is an `UpperBound` of the types. -/
theorem upperBound_widened (hR : Closed f R) (hdiffer : ∃ x ∈ types, ∃ y ∈ types, x.same y = false)
    {head : Primitive} {others : List Primitive} {t : Ty}
    (hprims : (types.map f.meaning).mapM Ty.primitive? = some (head :: others))
    (ht : (others.foldlM Primitive.widen head).map Ty.prim = some t) : UpperBound f R types t := by
  obtain ⟨r, hr, rfl⟩ := Option.map_eq_some_iff.mp ht
  rw [List.mapM_map] at hprims
  obtain ⟨hleft, -⟩ := mem_of_mapM_eq_some hprims
  have hnumeric : r.isNumeric = true := by
    -- there are at least two types, since two of them differ
    obtain ⟨x, hx, y, hy, hxy⟩ := hdiffer
    rcases types with _ | ⟨first, _ | ⟨second, rest⟩⟩
    · exact nomatch hx
    · rw [List.mem_singleton.mp hx, List.mem_singleton.mp hy, first.same_refl] at hxy
      exact nomatch hxy
    · cases others with
      | nil => simp [List.mapM_cons, Option.bind_eq_some_iff] at hprims
      | cons q others => exact Primitive.isNumeric_foldlM_widen hr
  have hwrapped : (Ty.prim r).isWrapped = true := by
    cases r <;> first | rfl | exact nomatch hnumeric
  refine .of_differ hdiffer (fun x hx => ?_) (.inr ⟨hwrapped, .inr fun x hx => ?_⟩)
  · obtain ⟨p, hp, hxp⟩ := hleft x hx
    exact hR.prim hxp (Primitive.coercesTo_foldlM_widen hr p hp)
  · obtain ⟨p, -, hxp⟩ := hleft x hx
    exact fun hnone => nomatch hxp.symm.trans hnone

omit hq hmerge in
/-- `once` is `meaning` on types that stand for something which is not named. -/
theorem map_once_eq {α : Type} {view : Ty → Option α} {found : List α}
    (hview : ∀ {t v}, view t = some v → t.reference? = none) (h : (types.map f.once).mapM view = some found) :
    types.map f.once = types.map f.meaning := by
  refine List.map_congr_left fun x hx => Unfolding.once_eq_meaning ?_
  obtain ⟨v, -, hv⟩ := (mem_of_mapM_eq_some h).1 (f.once x) (List.mem_map_of_mem hx)
  exact hview hv

/-- `common` is an `UpperBound` of types that can be merged. -/
theorem common_sound (hR : Closed f R) :
    (common q types).Returns fun found => ∀ t, found = some t → UpperBound f R types t := by
  unfold common
  split
  · exact .pure nofun
  · next first rest =>
    split
    · next hall =>
      -- the types are all the same
      have hsame : ∀ x ∈ first :: rest, x.same first = true := by
        rw [List.forall_mem_cons]
        exact ⟨first.same_refl, by simpa [Ty.beq_eq_same] using hall⟩
      refine .pure fun t ht => ?_
      obtain rfl := Option.some.inj ht
      exact ⟨fun x hx => hR.of_same (hsame x hx), fun _ => hsame, .inl List.mem_cons_self⟩
    · next hall =>
      have hdiffer : ∃ x ∈ first :: rest, ∃ y ∈ first :: rest, x.same y = false := by
        obtain ⟨x, hx, hxfirst⟩ : ∃ x ∈ rest, x.same first = false := by simpa [Ty.beq_eq_same] using hall
        exact ⟨x, List.mem_cons_of_mem first hx, first, List.mem_cons_self, hxfirst⟩
      have hassignable (c : Ty) : ((first :: rest).allM fun other => q.assignable other c).Returns fun yes =>
          yes = true → ∀ x ∈ first :: rest, R x c :=
        .mono (.allM fun other _ => hq.assignable other c) fun _ => And.right
      refine .bind (.findM? fun c _ => hassignable c) fun found hfound => ?_
      cases found with
      | some widest =>
        -- all of them are assignable to one
        refine .pure fun t ht => ?_
        obtain rfl := Option.some.inj ht
        obtain ⟨hmem, habove⟩ := hfound widest rfl
        exact .of_differ hdiffer habove (.inl hmem)
      | none =>
        -- what they stand for is merged
        refine .bind (.mapM fun x _ => hq.resolveDeep x) fun resolved hresolved => ?_
        subst hresolved
        split
        · next head others hprims =>
          have hview {t : Ty} {p} (h : t.primitive? = some p) : t.reference? = none := by
            rw [Ty.reference?, Ty.primitive?_eq_some.mp h]
          rw [map_once_eq hview hprims] at hprims
          exact .pure fun t ht => upperBound_widened hR hdiffer hprims ht
        · split
          · next bodies hbodies =>
            have hview {t : Ty} {body} (h : t.structBody? = some body) : t.reference? = none := by
              rw [Ty.reference?, Ty.structBody?_eq_some.mp h]
            rw [map_once_eq hview hbodies, List.mapM_map] at hbodies
            obtain ⟨hleft, hright⟩ := mem_of_mapM_eq_some hbodies
            refine (commonStruct_sound hq hmerge hright).mono fun found hfound t ht => ?_
            obtain ⟨fields, rfl, hfit⟩ := hfound t ht
            refine .of_differ hdiffer (fun x hx => ?_) (.inr ⟨rfl, .inl rfl⟩)
            obtain ⟨body, hbody, hxbody⟩ := hleft x hx
            exact hR.struct hxbody (hfit body hbody)
          · split
            · next constructors hconstructors =>
              have hview {t : Ty} {c} (h : t.constructed? = some c) : t.reference? = none := by
                rw [Ty.reference?, Ty.constructed?_eq_some.mp h]
              rw [map_once_eq hview hconstructors, List.mapM_map] at hconstructors
              obtain ⟨hleft, hright⟩ := mem_of_mapM_eq_some hconstructors
              refine (commonVariant_sound hq hmerge hleft hright hdiffer).mono fun found hfound t ht => ?_
              obtain ⟨decl, name, args, rfl, hfit⟩ := hfound t ht
              refine .of_differ hdiffer (fun x hx => ?_) (.inr ⟨rfl, .inl rfl⟩)
              obtain ⟨c, hc, hdecl, hargs⟩ := hfit x hx
              exact hR.constructed hc hdecl hargs
            · exact .pure nofun

end Typing

/-! ## Branches -/

/-- What a branch contributes. -/
inductive Contributes (t : Ty) : Option Ty → Prop where
  | never (h : t.isNever = true) : Contributes t none
  | null (h : t.isNull = true) : Contributes t none
  | base {base : Ty} (h : t.shape = .nullable base) : Contributes t (some base)
  | self (h : t.isNullable = false) (h' : t.isNull = false) : Contributes t (some t)

theorem branchCandidate?_contributes (t : Ty) : Contributes t (branchCandidate? t) := by
  unfold branchCandidate?
  split
  · next hshape => exact .never (by simp [Ty.isNever, Ty.isPrimitive, Ty.primitive?, hshape])
  · next hshape => exact .null (by simp [Ty.isNull, Ty.isPrimitive, Ty.primitive?, hshape])
  · next hshape => exact .base hshape
  · next hnever hnull hnullable =>
    refine .self ?_ ?_
    · unfold Ty.isNullable
      split
      · next hshape => exact absurd hshape (hnullable _)
      · rfl
    · rw [← Bool.not_eq_true]
      intro hisNull
      exact hnull (Ty.primitive?_eq_some.mp (by simpa [Ty.isNull, Ty.isPrimitive] using hisNull))

section Branches

variable {q : Queries} {f : Unfolding} {R : Ty → Ty → Prop} (hR : Closed f R)
  {types : List Ty} (hbuilt : ∀ t ∈ types, t.isBuilt = true)

include hbuilt in
/-- `branchCandidate?` gives no type that admits null. -/
theorem admitsNoNull_of_contributed {t : Ty} (ht : t ∈ types.filterMap branchCandidate?) :
    t.isNullable = false ∧ t.isNull = false := by
  obtain ⟨x, hx, hxt⟩ := List.mem_filterMap.mp ht
  have hcontributes := branchCandidate?_contributes x
  rw [hxt] at hcontributes
  cases hcontributes with
  | base hshape =>
    have hwrapped := hbuilt x hx
    rw [Ty.isBuilt, hshape] at hwrapped
    simp only [Ty.isWrapped, Bool.not_eq_true', Bool.or_eq_false_iff] at hwrapped
    exact ⟨hwrapped.1.1.1, hwrapped.1.1.2⟩
  | self hnullable hnull => exact ⟨hnullable, hnull⟩

/-- Whether a branch admits null. -/
def admitNull (types : List Ty) : Bool :=
  types.any fun t => t.isNull || t.isNullable

include hR in
/-- Branches can be assigned to a type if what `branchCandidate?` gives for them can, once it admits null if one of them
does. -/
theorem above_of_contributed {t : Ty} (ht : t.isNullable = false) (ht' : t.isNull = false)
    (habove : ∀ x ∈ types.filterMap branchCandidate?, R x t) {x : Ty} (hx : x ∈ types) :
    R x (if admitNull types then t.nullable else t) := by
  have hadmits (h : x.isNull = true ∨ x.isNullable = true) : admitNull types = true :=
    List.any_eq_true.mpr ⟨x, hx, by simpa using h⟩
  have hcontributed {u : Ty} (hu : branchCandidate? x = some u) : R u t :=
    habove u (List.mem_filterMap.mpr ⟨x, hx, hu⟩)
  have hcontributes := branchCandidate?_contributes x
  generalize hu : branchCandidate? x = u at hcontributes
  cases hcontributes with
  | never h => exact hR.of_never h
  | null h =>
    rw [hadmits (.inl h), if_pos rfl]
    exact hR.built ht ht' (hR.null h)
  | base h =>
    rw [hadmits (.inr (by simp [Ty.isNullable, h])), if_pos rfl]
    exact hR.built ht ht' (hR.nullable h (hcontributed hu))
  | self h h' =>
    split
    · exact hR.built ht ht' (hR.to_nullable h (hcontributed hu))
    · exact hcontributed hu

/-- Branches that contribute nothing are `never`, or `null` if one of them admits null. -/
theorem above_of_none (hR : Closed f R) (hempty : types.filterMap branchCandidate? = []) {x : Ty} (hx : x ∈ types) :
    R x (if admitNull types then .null else .never) := by
  have hcontributes := branchCandidate?_contributes x
  rw [List.filterMap_eq_nil_iff.mp hempty x hx] at hcontributes
  cases hcontributes with
  | never h => exact hR.of_never h
  | null h =>
    rw [admitNull, List.any_eq_true.mpr ⟨x, hx, by simp [h]⟩, if_pos rfl]
    have hshape : x.shape = .prim .null := Ty.primitive?_eq_some.mp (by simpa [Ty.isNull, Ty.isPrimitive] using h)
    exact hR.of_same (by rw [Ty.same_eq, hshape]; rfl)

/-- `commonType` merges branches without errors from what `branchCandidate?` gives for them. -/
theorem Queries.commonType_eq (q : Queries) (herrors : ∀ t ∈ types, t.isError = false) :
    q.commonType types =
      if (types.filterMap branchCandidate?).isEmpty then pure (if admitNull types then .null else .never)
      else do
        match ← q.common (types.filterMap branchCandidate?) with
        | some t => return if admitNull types then t.nullable else t
        | none => return .error (.noCommonType (types.map Ty.text)) := by
  have hknown : types.filter (fun t => !t.isPlaceholder) = types := by
    refine List.filter_eq_self.mpr fun t ht => ?_
    cases hopen : t.isPlaceholder with
    | false => rfl
    | true => exact nomatch (Ty.isError_of_isPlaceholder hopen).symm.trans (herrors t ht)
  have hnone : types.find? (·.isError) = none := by
    rw [List.find?_eq_none]
    intro t ht
    simp [herrors t ht]
  unfold Queries.commonType
  simp only [hknown, hnone]
  split
  · next hempty =>
    rw [List.isEmpty_iff] at hempty
    simp [hempty, admitNull]
  · rfl

include hR hbuilt in
/-- `commonType` is a type that every branch can be assigned to, if the queries are `Sound`. -/
theorem Queries.Sound.commonType (hq : q.Sound f R) (herrors : ∀ t ∈ types, t.isError = false)
    (hmerge : Mergeable f (types.filterMap branchCandidate?)) :
    (q.commonType types).Returns fun t => ∀ x ∈ types, R x t := by
  rw [q.commonType_eq herrors]
  split
  · next hempty =>
    exact .pure fun x hx => above_of_none hR (List.isEmpty_iff.mp hempty) hx
  · refine .bind (hq.common _ hmerge) fun found hfound => ?_
    cases found with
    | none => exact .pure fun x _ => hR x _ (.inr (.inr (.inr (.inl rfl))))
    | some t =>
      obtain ⟨habove, -, hmerged⟩ := hfound t rfl
      have hadmits : t.isNullable = false ∧ t.isNull = false := by
        rcases hmerged with ht | ⟨hwrapped, -⟩
        · exact admitsNoNull_of_contributed hbuilt ht
        · simp only [Ty.isWrapped, Bool.not_eq_true', Bool.or_eq_false_iff] at hwrapped
          exact ⟨hwrapped.1.1.1, hwrapped.1.1.2⟩
      exact .pure fun x hx => above_of_contributed hR hadmits.1 hadmits.2 habove hx

end Branches

end Ascribe
