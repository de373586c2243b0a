import Ascribe.Proofs.Assignability.Numbers
import Ascribe.Proofs.Ty.Solving

/-!
# Numbers that are given for one parameter

A generic parameter that several numbers and nulls are given for is bound to a type of numbers that grows from left to
right: numbers widen, and null makes it nullable. But a binding that is nullable does not grow any more. So only the
numbers in front of the first null count, or the first number of all if null comes first (`Numbers.settling`), and the
numbers behind are accepted only if they happen to convert to what these meet in.

In all orders in which everything is accepted the binding is the same, unless the numbers are torn between the two
floats: then they meet in `f32` or in `f64`, depending on which of them come first.

## Key results

- `Numbers.foldl_merge`: what is bound, from left to right
- `Numbers.binding_congr`: the orders that bind the same type
- `solveGenerics_numbers`: what the parameter is bound to, and which arguments are accepted for it
-/

namespace Ascribe

namespace Numbers

variable {p : Primitive} {given given' : List (Option Primitive)}

/-- What a binding becomes when one more number or null is given. -/
def merge : Numbers → Option Primitive → Numbers
  | ⟨none, _⟩, arg => ⟨arg, true⟩
  | ⟨some p, true⟩, _ => ⟨some p, true⟩
  | ⟨some p, false⟩, none => ⟨some p, true⟩
  | ⟨some p, false⟩, some q => ⟨p.widen q, false⟩

/-- `merge` never loses all values of a binding. -/
theorem merge_values {m : Numbers} {arg : Option Primitive} (hm : ∀ p, m.number = some p → p.isNumeric = true)
    (harg : ∀ q, arg = some q → q.isNumeric = true) :
    (m.merge arg).number = none → (m.merge arg).hasNull = true := by
  obtain ⟨_ | p, _ | _⟩ := m
  · exact fun _ => rfl
  · exact fun _ => rfl
  · cases arg with
    | none => exact nofun
    | some q =>
      obtain ⟨r, hr, -⟩ := Primitive.exists_widen (hm p rfl) (harg q rfl)
      show p.widen q = none → _
      rw [hr]
      exact nofun
  · exact nofun

/-- The number type that several number types meet in. -/
def meet : List Primitive → Option Primitive
  | [] => none
  | p :: others => others.foldlM Primitive.widen p

/-- The numbers that settle a binding: those in front of the first null, or the first one if null comes first. -/
def settling (given : List (Option Primitive)) : List Primitive :=
  match (given.takeWhile Option.isSome).filterMap id with
  | [] => (given.filterMap id).take 1
  | settled => settled

/-- What is bound to a parameter that some numbers and nulls are given for. -/
def binding (given : List (Option Primitive)) : Numbers :=
  ⟨meet (settling given), given.any Option.isNone⟩

/-! ## From left to right -/

theorem foldl_merge_nullable : given.foldl merge ⟨some p, true⟩ = ⟨some p, true⟩ := by
  induction given with
  | nil => rfl
  | cons arg rest ih => exact ih

theorem foldl_merge_null : given.foldl merge ⟨none, true⟩ = ⟨(given.filterMap id).head?, true⟩ := by
  induction given with
  | nil => rfl
  | cons arg rest ih =>
    cases arg with
    | none => exact ih
    | some p => exact foldl_merge_nullable

/-- `merge` lets the numbers meet by `Primitive.widen` one after another, as long as no null is given. -/
theorem foldl_merge_number (hnumeric : ∀ q ∈ p :: given.filterMap id, q.isNumeric = true) :
    given.foldl merge ⟨some p, false⟩ =
      ⟨((given.takeWhile Option.isSome).filterMap id).foldlM Primitive.widen p, given.any Option.isNone⟩ := by
  induction given generalizing p with
  | nil => rfl
  | cons arg rest ih =>
    cases arg with
    | none => exact foldl_merge_nullable
    | some q =>
      simp only [List.filterMap_cons_some (f := id) rfl, List.forall_mem_cons] at hnumeric
      obtain ⟨r, hr, -⟩ := Primitive.exists_widen hnumeric.1 hnumeric.2.1
      show rest.foldl merge ⟨p.widen q, false⟩ = _
      rw [hr, ih (List.forall_mem_cons.mpr ⟨Primitive.isNumeric_widen hr, hnumeric.2.2⟩),
        List.takeWhile_cons_of_pos rfl, List.filterMap_cons_some (f := id) rfl, List.foldlM_cons, hr]
      rfl

/-- Folding `merge` from left to right gives `binding`: what the settling numbers meet in, with null if it is given. -/
theorem foldl_merge {first : Option Primitive}
    (hnumeric : ∀ q ∈ (first :: given).filterMap id, q.isNumeric = true) :
    given.foldl merge ⟨first, first.isNone⟩ = binding (first :: given) := by
  cases first with
  | none =>
    show given.foldl merge ⟨none, true⟩ = ⟨meet ((given.filterMap id).take 1), true⟩
    rw [foldl_merge_null]
    cases given.filterMap id <;> rfl
  | some p => exact foldl_merge_number hnumeric

/-! ## Orders that bind the same type -/

theorem mem_of_mem_settling (h : p ∈ settling given) : p ∈ given.filterMap id := by
  unfold settling at h
  split at h
  · exact List.mem_of_mem_take h
  · exact ((List.takeWhile_sublist _).filterMap id).subset h

theorem settling_eq_nil_iff : settling given = [] ↔ given.filterMap id = [] := by
  constructor
  · intro h
    unfold settling at h
    split at h
    · simpa using h
    · next hne => exact absurd h hne
  · intro h
    by_contra hne
    obtain ⟨p, hp⟩ := List.exists_mem_of_ne_nil _ hne
    have hmem := mem_of_mem_settling hp
    rw [h] at hmem
    cases hmem

/-- If there are numbers, those of `settling` meet in the number of `binding`. -/
theorem exists_binding (hnumeric : ∀ q ∈ given.filterMap id, q.isNumeric = true) (hne : given.filterMap id ≠ []) :
    ∃ q others r, settling given = q :: others ∧ others.foldlM Primitive.widen q = some r ∧
      (binding given).number = some r := by
  obtain ⟨q, others, hsettling⟩ := List.exists_cons_of_ne_nil (mt settling_eq_nil_iff.mp hne)
  have hnumeric' (p : Primitive) (hp : p ∈ q :: others) : p.isNumeric = true :=
    hnumeric p (mem_of_mem_settling (hsettling ▸ hp))
  obtain ⟨r, hr, -⟩ := Primitive.exists_foldlM_widen hnumeric'
  refine ⟨q, others, r, hsettling, hr, ?_⟩
  rw [binding, hsettling]
  exact hr

/-- The numbers of `settling` convert to the one of `binding`. -/
theorem any_coercesTo_of_mem_settling (hnumeric : ∀ q ∈ given.filterMap id, q.isNumeric = true)
    (h : p ∈ settling given) : (binding given).number.any p.coercesTo = true := by
  obtain ⟨q, others, r, hsettling, hr, hbinding⟩ :=
    exists_binding hnumeric (List.ne_nil_of_mem (mem_of_mem_settling h))
  rw [hbinding]
  rw [hsettling] at h
  exact Primitive.coercesTo_foldlM_widen hr p h

/-- If every number converts to the one of `binding`, that is the `Primitive.Narrowest` of all, unless the numbers are
torn. -/
theorem narrowest_binding (hnumeric : ∀ q ∈ given.filterMap id, q.isNumeric = true) (hne : given.filterMap id ≠ [])
    (htorn : ¬ Primitive.IsTorn (given.filterMap id))
    (habove : ∀ q ∈ given.filterMap id, (binding given).number.any q.coercesTo = true) :
    ∃ r, (binding given).number = some r ∧ Primitive.Narrowest (given.filterMap id) r := by
  obtain ⟨q, others, r, hsettling, hr, hbinding⟩ := exists_binding hnumeric hne
  rw [hbinding] at habove
  have hsome (p : Primitive) (hp : p ∈ q :: others) : p ∈ given.filterMap id :=
    mem_of_mem_settling (hsettling ▸ hp)
  exact ⟨r, hbinding, Primitive.narrowest_of_foldlM_widen hsome hnumeric hr habove htorn⟩

/-- `binding` is the same in all orders in which every number converts to what is bound, unless the numbers are torn. -/
theorem binding_congr (hmem : ∀ arg, arg ∈ given ↔ arg ∈ given')
    (hnumeric : ∀ q ∈ given.filterMap id, q.isNumeric = true) (htorn : ¬ Primitive.IsTorn (given.filterMap id))
    (habove : ∀ q ∈ given.filterMap id, (binding given).number.any q.coercesTo = true)
    (habove' : ∀ q ∈ given'.filterMap id, (binding given').number.any q.coercesTo = true) :
    binding given = binding given' := by
  have hnumbers (q : Primitive) : q ∈ given.filterMap id ↔ q ∈ given'.filterMap id := by
    simp only [List.mem_filterMap, hmem]
  have hnull : (binding given).hasNull = (binding given').hasNull := by
    show given.any Option.isNone = given'.any Option.isNone
    rw [Bool.eq_iff_iff]
    simp only [List.any_eq_true, hmem]
  have hnumber : (binding given).number = (binding given').number := by
    by_cases hnone : given.filterMap id = []
    · have hnone' : given'.filterMap id = [] := by
        simpa only [List.eq_nil_iff_forall_not_mem, hnumbers] using hnone
      rw [binding, binding, settling_eq_nil_iff.mpr hnone, settling_eq_nil_iff.mpr hnone']
    · have hnone' : given'.filterMap id ≠ [] := by
        simpa only [ne_eq, List.eq_nil_iff_forall_not_mem, hnumbers] using hnone
      have htorn' : ¬ Primitive.IsTorn (given'.filterMap id) := by
        simpa only [Primitive.IsTorn, hnumbers] using htorn
      obtain ⟨r, hr, hnarrowest⟩ := narrowest_binding hnumeric hnone htorn habove
      obtain ⟨r', hr', hnarrowest'⟩ :=
        narrowest_binding (fun q hq => hnumeric q ((hnumbers q).mpr hq)) hnone' htorn' habove'
      rw [hr, hr', (hnarrowest.congr hnumbers).unique hnarrowest']
  exact Numbers.ext hnumber hnull

end Numbers

/-! ## Bindings -/

/-- The number type that is given by an argument; `null` gives none. -/
def Ty.given (t : Ty) : Option Primitive :=
  t.primitive?.filter Primitive.isNumeric

/-- Whether a type is a number type or null. -/
def Ty.isNumberOrNull (t : Ty) : Bool :=
  t.isNumeric || t.isNull

theorem Ty.given_cases {t : Ty} (h : t.isNumberOrNull = true) :
    (t.shape = .prim .null ∧ t.given = none) ∨ ∃ p, t.shape = .prim p ∧ p.isNumeric = true ∧ t.given = some p := by
  rcases Bool.or_eq_true_iff.mp h with hnumeric | hnull
  · obtain ⟨p, hp, hnumeric⟩ := (Option.any_eq_true _ _).mp hnumeric
    exact .inr ⟨p, primitive?_eq_some.mp hp, hnumeric, by simp [given, hp, hnumeric]⟩
  · have hprim : t.primitive? = some .null := by simpa [isNull, isPrimitive] using hnull
    refine .inl ⟨primitive?_eq_some.mp hprim, ?_⟩
    rw [given, hprim]
    rfl

theorem Ty.numbers?_of_isNumberOrNull {t : Ty} (h : t.isNumberOrNull = true) :
    t.numbers? = some ⟨t.given, t.given.isNone⟩ := by
  rcases given_cases h with ⟨hshape, hgiven⟩ | ⟨p, hshape, hnumeric, hgiven⟩
  · rw [hgiven]
    exact (HoldsNumbers.null hshape).numbers?_eq
  · rw [hgiven]
    exact numbers?_number hshape hnumeric

theorem Ty.isNumeric_of_given {t : Ty} {p : Primitive} (h : t.given = some p) : p.isNumeric = true :=
  (Option.filter_eq_some_iff.mp h).2

namespace Bindings

variable {solved : Bindings} {name : String} {known arg : Ty} {m : Numbers}

/-- `accept` merges one more argument for a name into what is bound to it. -/
theorem get?_accept (hknown : solved.get? name = some known) (hm : known.numbers? = some m)
    (hvalues : m.number = none → m.hasNull = true) (harg : arg.isNumberOrNull = true) :
    ∃ t, (solved.accept name arg).get? name = some t ∧ t.numbers? = some (m.merge arg.given) := by
  have harg' := Ty.numbers?_of_isNumberOrNull harg
  unfold Bindings.accept
  rw [hknown]
  dsimp only
  split
  · -- the same once more
    next hsame =>
    obtain rfl : m = ⟨arg.given, arg.given.isNone⟩ := by
      rw [Ty.beq_eq_same] at hsame
      exact Option.some.inj (hm.symm.trans ((Ty.numbers?_of_same hsame).trans harg'))
    refine ⟨known, hknown, ?_⟩
    rw [hm]
    cases hgiven : arg.given with
    | none => rfl
    | some p =>
      have hp := Ty.isNumeric_of_given hgiven
      show _ = some (Numbers.mk (p.widen p) false)
      rw [Primitive.widen_of_coercesTo hp hp p.coercesTo_self]
      rfl
  · split
    · -- only null so far
      next hnull =>
      obtain rfl : m = ⟨none, true⟩ := by
        have hshape : known.shape = .prim .null :=
          Ty.primitive?_eq_some.mp (by simpa [Ty.isNull, Ty.isPrimitive] using hnull)
        exact Option.some.inj (hm.symm.trans (Ty.HoldsNumbers.null hshape).numbers?_eq)
      refine ⟨arg.nullable, by simp, ?_⟩
      exact Ty.numbers?_nullable_of harg' fun h => Option.isNone_iff_eq_none.mpr h
    · next hknownNull =>
      rcases Ty.given_cases harg with ⟨hshape, hgiven⟩ | ⟨q, hshape, hnumeric, hgiven⟩
      · -- the first null, or one more
        have hnull : arg.isNull = true := by simp [Ty.isNull, Ty.isPrimitive, Ty.primitive?, hshape]
        rw [if_pos hnull]
        refine ⟨known.nullable, by simp, ?_⟩
        rw [Ty.numbers?_nullable_of hm hvalues, hgiven]
        obtain ⟨_ | p, _ | _⟩ := m <;> rfl
      · have hnull := (Ty.plain_of_isNumeric hshape hnumeric).2.1
        rw [if_neg (by simp [hnull]), hgiven, Ty.primitive?_eq_some.mpr hshape]
        cases Ty.holdsNumbers hm with
        | never => cases hvalues rfl
        | null shape' => exact absurd (by simp [Ty.isNull, Ty.isPrimitive, Ty.primitive?, shape']) hknownNull
        | @number p shape' numeric' =>
          rw [Ty.primitive?_eq_some.mpr shape']
          show ∃ t : Ty, _ ∧ t.numbers? = some (Numbers.mk (p.widen q) false)
          dsimp only
          -- whichever way the two numbers meet, the type that they meet in is bound
          split_ifs with hpq hqp
          · rw [Primitive.widen_of_coercesTo numeric' hnumeric hpq]
            exact ⟨arg, by simp, Ty.numbers?_number hshape hnumeric⟩
          · have hwiden : p.widen q = some p := by simp [Primitive.widen, numeric', hnumeric, hpq, hqp]
            rw [hwiden]
            exact ⟨known, hknown, hm⟩
          · obtain ⟨r, hr, -⟩ := Primitive.exists_widen numeric' hnumeric
            rw [hr]
            exact ⟨.prim r, by simp, Ty.numbers?_number rfl (Primitive.isNumeric_widen hr)⟩
        | nullable shape' inner' =>
          have hprim : known.primitive? = none := by rw [Ty.primitive?, shape']
          rw [hprim]
          exact ⟨known, hknown, hm⟩

/-- Folding `accept` merges all further arguments for a name into what is bound to it. -/
theorem get?_foldl_accept {args : List Ty} (hknown : solved.get? name = some known) (hm : known.numbers? = some m)
    (hvalues : m.number = none → m.hasNull = true) (hargs : ∀ arg ∈ args, arg.isNumberOrNull = true) :
    ∃ t, (args.foldl (·.accept name ·) solved).get? name = some t ∧
      t.numbers? = some ((args.map Ty.given).foldl Numbers.merge m) := by
  induction args generalizing solved known m with
  | nil => exact ⟨known, hknown, hm⟩
  | cons arg rest ih =>
    rw [List.forall_mem_cons] at hargs
    obtain ⟨t, ht, htm⟩ := get?_accept hknown hm hvalues hargs.1
    apply ih ht htm _ hargs.2
    exact Numbers.merge_values (fun p => Ty.isNumeric_of_numbers? hm) fun q => Ty.isNumeric_of_given

end Bindings

/-! ## Parameters -/

section Parameters

variable {names : List String} {name : String} {params args : List Ty}

/-- `Ty.matchAll` of parameters that are all the same name is `accept` of one argument after another for that name. -/
theorem matchAll_solve (hname : name ∈ names) (hparams : ∀ t ∈ params, ∃ g, t.shape = .generic g ∧ g.name = name)
    (hlength : args.length ≤ params.length) (hargs : ∀ arg ∈ args, arg.isNumberOrNull = true) (solved : Bindings) :
    Ty.matchAll (params.map (Ty.solve names)) args solved = args.foldl (·.accept name ·) solved := by
  induction args generalizing params solved with
  | nil => cases params <;> rfl
  | cons arg rest ih =>
    cases params with
    | nil => cases hlength
    | cons param params =>
      rw [List.forall_mem_cons] at hparams hargs
      obtain ⟨g, hg, rfl⟩ := hparams.1
      have haccept : param.solve names arg solved = solved.accept g.name arg := by
        have hplain : (arg.isNever || arg.isError) = false := by
          rcases Ty.given_cases hargs.1 with ⟨hshape, -⟩ | ⟨p, hshape, hnumeric, -⟩
          · simp [Ty.isNever, Ty.isError, Ty.isPrimitive, Ty.primitive?, Ty.problem?, hshape]
          · obtain ⟨hnever, -, herror⟩ := Ty.plain_of_isNumeric hshape hnumeric
            rw [hnever, herror, Bool.or_false]
        rw [Ty.solve_eq, hg]
        show (if arg.isNever || arg.isError then solved
          else if names.contains g.name then solved.accept g.name arg else solved) = _
        rw [hplain, List.contains_iff_mem.mpr hname]
        rfl
      rw [List.map_cons, Ty.matchAll, haccept]
      exact ih hparams.2 (Nat.le_of_succ_le_succ hlength) hargs.2 _

theorem filterMap_id_map_given : (args.map Ty.given).filterMap id = args.filterMap Ty.given := by
  rw [List.filterMap_map]
  rfl

theorem isNumeric_of_mem_given (q : Primitive) (h : q ∈ (args.map Ty.given).filterMap id) : q.isNumeric = true := by
  rw [filterMap_id_map_given] at h
  obtain ⟨arg, -, hq⟩ := List.mem_filterMap.mp h
  exact Ty.isNumeric_of_given hq

/-- `solveGenerics` binds a name to the `Numbers.binding` of the arguments that are given for it. -/
theorem exists_solveGenerics (hdistinct : names.Nodup) (hname : name ∈ names)
    (hparams : ∀ t ∈ params, ∃ g, t.shape = .generic g ∧ g.name = name) (hlength : args.length ≤ params.length)
    (hne : args ≠ []) (hargs : ∀ arg ∈ args, arg.isNumberOrNull = true) :
    ∃ t, (solveGenerics names params args).get? name = some t ∧
      t.numbers? = some (Numbers.binding (args.map Ty.given)) := by
  rw [get?_solveGenerics hdistinct, if_pos hname, matchAll_solve hname hparams hlength hargs]
  obtain ⟨first, rest, rfl⟩ := List.exists_cons_of_ne_nil hne
  rw [List.forall_mem_cons] at hargs
  have hfirst : (Bindings.accept ∅ name first).get? name = some first := by
    simp [Bindings.accept]
  obtain ⟨t, ht, hm⟩ := Bindings.get?_foldl_accept hfirst (Ty.numbers?_of_isNumberOrNull hargs.1)
    (fun h => Option.isNone_iff_eq_none.mpr h) hargs.2
  have hnumeric : ∀ q ∈ ((first :: rest).map Ty.given).filterMap id, q.isNumeric = true := isNumeric_of_mem_given
  rw [Numbers.foldl_merge hnumeric] at hm
  exact ⟨t, by rw [List.foldl_cons, ht]; rfl, hm⟩

/-- Whether all arguments are accepted for a type. -/
def AllAccepted (args : List Ty) (t : Ty) : Prop :=
  ∀ arg ∈ args, compareUnresolved arg t = .ok (.ok ())

section Accepted

variable {t : Ty} (ht : t.numbers? = some (Numbers.binding (args.map Ty.given)))
  (hargs : ∀ arg ∈ args, arg.isNumberOrNull = true)

include ht hargs

/-- `compareUnresolved` accepts a null for what is bound, and a number if it converts to it. -/
theorem accepted_iff {arg : Ty} (harg : arg ∈ args) :
    compareUnresolved arg t = .ok (.ok ()) ↔
      ∀ q, arg.given = some q → (Numbers.binding (args.map Ty.given)).number.any q.coercesTo = true := by
  rw [compareUnresolved_numbers (Ty.numbers?_of_isNumberOrNull (hargs arg harg)) ht, Numbers.fits_iff]
  have hnull (h : arg.given.isNone = true) : (Numbers.binding (args.map Ty.given)).hasNull = true :=
    List.any_eq_true.mpr ⟨arg.given, List.mem_map_of_mem harg, h⟩
  exact and_iff_right hnull

theorem allAccepted_iff :
    AllAccepted args t ↔
      ∀ q ∈ (args.map Ty.given).filterMap id, (Numbers.binding (args.map Ty.given)).number.any q.coercesTo = true := by
  rw [filterMap_id_map_given]
  constructor
  · intro h q hq
    obtain ⟨arg, harg, hgiven⟩ := List.mem_filterMap.mp hq
    exact (accepted_iff ht hargs harg).mp (h arg harg) q hgiven
  · intro h arg harg
    rw [accepted_iff ht hargs harg]
    intro q hq
    exact h q (List.mem_filterMap.mpr ⟨arg, harg, hq⟩)

end Accepted

/-- `solveGenerics` binds a generic parameter that numbers and nulls are given for to what the settling numbers meet in,
nullable if null is given. `compareUnresolved` accepts nulls for it, and exactly those numbers that convert to what the
settling numbers meet in. These do, so all arguments are accepted if no null stands in front of a number. In all orders
in which all arguments are accepted the parameter is bound to the same type, unless the numbers are torn. -/
theorem solveGenerics_numbers (hdistinct : names.Nodup) (hname : name ∈ names)
    (hparams : ∀ t ∈ params, ∃ g, t.shape = .generic g ∧ g.name = name) (hlength : args.length ≤ params.length)
    (hne : args ≠ []) (hargs : ∀ arg ∈ args, arg.isNumberOrNull = true) :
    ∃ t, (solveGenerics names params args).get? name = some t ∧
      t.same (Numbers.binding (args.map Ty.given)).toTy = true ∧
      (∀ arg ∈ args, compareUnresolved arg t = .ok (.ok ()) ↔
        ∀ q ∈ arg.given, ∃ r ∈ Numbers.meet (Numbers.settling (args.map Ty.given)), q.coercesTo r = true) ∧
      (Numbers.settling (args.map Ty.given) = args.filterMap Ty.given → AllAccepted args t) ∧
      (AllAccepted args t → ¬ Primitive.IsTorn (args.filterMap Ty.given) →
        ∀ others : List Ty, others.length ≤ params.length → (∀ arg, arg ∈ others ↔ arg ∈ args) →
          ∀ u, (solveGenerics names params others).get? name = some u → AllAccepted others u → u.same t = true) := by
  obtain ⟨t, ht, hm⟩ := exists_solveGenerics hdistinct hname hparams hlength hne hargs
  refine ⟨t, ht, Ty.same_toTy hm, fun arg harg => ?_, fun hsettling => ?_, ?_⟩
  · rw [accepted_iff hm hargs harg]
    simp only [Option.any_eq_true]
    rfl
  · rw [allAccepted_iff hm hargs]
    intro q hq
    apply Numbers.any_coercesTo_of_mem_settling isNumeric_of_mem_given
    rwa [hsettling, ← filterMap_id_map_given]
  · intro haccepted htorn others hlength' hmem u hu haccepted'
    have hargs' (arg : Ty) (harg : arg ∈ others) := hargs arg ((hmem arg).mp harg)
    have hne' : others ≠ [] := by
      simpa only [ne_eq, List.eq_nil_iff_forall_not_mem, hmem] using hne
    obtain ⟨u', hu', hm'⟩ := exists_solveGenerics hdistinct hname hparams hlength' hne' hargs'
    obtain rfl := Option.some.inj (hu.symm.trans hu')
    rw [allAccepted_iff hm hargs] at haccepted
    rw [allAccepted_iff hm' hargs'] at haccepted'
    rw [← filterMap_id_map_given] at htorn
    have hbinding := Numbers.binding_congr (fun arg => by simp only [List.mem_map, hmem]) isNumeric_of_mem_given htorn
      haccepted haccepted'
    rw [← hbinding] at hm'
    exact Ty.same_of_numbers? hm' hm

end Parameters

/-- The parameter types of `fn<T>(a: T, b: T, c: T)`. -/
def alike : List Ty :=
  List.replicate 3 (.parameter "T")

/-- The arguments `u8`, `u32` and `null`. -/
def nullLast : List Ty :=
  [.prim .u8, .prim .u32, .null]

/-- The same arguments in another order, with a number behind the null. -/
def nullSecond : List Ty :=
  [.prim .u32, .null, .prim .u8]

/-- In both orders the parameter is bound to `u32?`, and all arguments are accepted. -/
theorem alike_widened :
    ∃ t, (solveGenerics ["T"] alike nullLast).get? "T" = some t ∧ t.same (.nullable (.prim .u32)) = true ∧
      AllAccepted nullLast t ∧
      ∃ u, (solveGenerics ["T"] alike nullSecond).get? "T" = some u ∧ u.same t = true ∧ AllAccepted nullSecond u := by
  have hparams : ∀ t ∈ alike, ∃ g, t.shape = .generic g ∧ g.name = "T" := by
    simp [alike, Ty.parameter, Ty.of]
  have hname : "T" ∈ ["T"] := List.mem_singleton_self _
  have hlength : nullLast.length ≤ alike.length := by decide
  have hlength' : nullSecond.length ≤ alike.length := by decide
  obtain ⟨t, ht, hsame, -, hall, horder⟩ :=
    solveGenerics_numbers (List.nodup_singleton "T") hname hparams hlength (by simp [nullLast]) (by decide +kernel)
  obtain ⟨u, hu, -, haccepted, -⟩ :=
    solveGenerics_numbers (List.nodup_singleton "T") hname hparams hlength' (by simp [nullSecond]) (by decide +kernel)
  have hall : AllAccepted nullLast t := hall (by decide +kernel)
  have hall' : AllAccepted nullSecond u := by
    -- `u32` settles the binding, and `u8` happens to convert to it
    have hconverts : ∀ arg ∈ nullSecond, ∀ q ∈ arg.given,
        ∃ r ∈ Numbers.meet (Numbers.settling (nullSecond.map Ty.given)), q.coercesTo r = true := by
      decide +kernel
    intro arg harg
    exact (haccepted arg harg).mpr (hconverts arg harg)
  have hmem (arg : Ty) : arg ∈ nullSecond ↔ arg ∈ nullLast := by
    simp only [nullSecond, nullLast, List.mem_cons, List.not_mem_nil]
    tauto
  exact ⟨t, ht, hsame, hall, u, hu, horder hall (by decide +kernel) _ hlength' hmem u hu hall', hall'⟩

/-- The text of the type that arguments bind the parameter to. -/
def boundText (args : List Ty) : Option String :=
  ((solveGenerics ["T"] alike args).get? "T").map Ty.text

/-- For `nullLast` the parameter is bound to the wider number. If null comes first, it is bound to the first number
alone and the next one is refused. Torn numbers meet in one float or in the other. -/
theorem alike_narrowed :
    boundText nullLast = some "u32?" ∧ boundText [.null, .prim .u8, .prim .u32] = some "u8?" ∧
      (compareUnresolved (.prim .u32) (.nullable (.prim .u8))).toOption.map Verdict.holds = some false ∧
      boundText [.prim .u64, .prim .i8, .prim .f32] = some "f64" ∧
      boundText [.prim .f32, .prim .u64, .prim .i8] = some "f32" := by
  decide +kernel

end Ascribe
