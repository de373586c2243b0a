import Ascribe.Proofs.Search.Returns
import Ascribe.Proofs.Ty.Solving
import Ascribe.Typing.Answers

/-!
# Members at generic arguments

The values of a struct, a class, an array, a coroutine or a constructor have the members that their type says
(`Ty.ownMember?`). Looking a member up and replacing generic parameters can be done in either order: the same names are
found, and what is found under them is replaced in the same way (`Ty.ownMember?_substitute`). So a member of a generic
type at some arguments is the declared one, with the arguments in place of the parameters.

Members of arrays and coroutines come from tables that are written against a parameter of their own, for the element.
Looking one up puts the element in, and replacing parameters afterwards goes through the element as well. Nothing else
can be replaced, even if the parameter of the tables has the name of another one (`Prototype.member?_substitute`).

## Key results

- `Ty.substitute_substitute_of_isTemplate`: two passes where the first one fills every parameter
- `Ty.ownMember?_substitute`: members after a substitution
- `Typing.instanceMember_substitute`: looking up members, in instances and through named types
-/

namespace Ascribe

/-! ## Layers that a substitution passes through -/

namespace Ty

variable {t : Ty}

/-- `substitute` rewrites the parts of a layer that `isPassedThrough`, be there bindings or not. -/
theorem substitute_of_isPassedThrough (ht : t.shape.isPassedThrough = true) (bindings : Bindings) :
    t.substitute bindings = t.replaced bindings := by
  cases hempty : bindings.isEmpty with
  | false => exact substitute_eq_replaced ht hempty
  | true =>
    have hparts : (t.shape.mapUnder fun own part => part.substitute (bindings.shadow own)) = t.shape := by
      rw [← map_substitute_of_isEmpty hempty t.shape, Shape.map, Shape.mapUnder_mapUnder]
      refine Shape.mapUnder_congr fun own part _ => ?_
      rw [substitute_of_isEmpty hempty, substitute_of_isEmpty (Bindings.isEmpty_shadow hempty own)]
    rw [substitute_of_isEmpty hempty, replaced, hparts]
    cases t
    rfl

/-! ## Templates -/

/-- Whether a type is put together of parameters and frames, which hide no parameter. -/
def isTemplate (t : Ty) : Bool :=
  t.everywhere fun t =>
    match t.shape with
    | .generic _ | .nullable _ => true
    | s => s.isFrame

theorem substitute_of_isFrame (h : t.shape.isFrame = true) (bindings : Bindings) :
    t.substitute bindings = ⟨t.shape.map (·.substitute bindings), t.origin⟩ := by
  have hpassed : t.shape.isPassedThrough = true := by
    cases hshape : t.shape <;> simp_all [Shape.isFrame, Shape.isPassedThrough]
  rw [← shape_substitute_of_isFrame h, substitute_of_isPassedThrough hpassed, replaced]

theorem isFrame_map {α β : Type} (f : α → β) (s : Shape α) : (s.map f).isFrame = s.isFrame := by
  cases s <;> simp [Shape.map, Shape.mapUnder, Shape.mapFields, Shape.isFrame, Signature.mapUnder, Function.comp_def]

/-- If a first `substitute` fills every parameter of a template, a second one only goes through what was put there. -/
theorem substitute_substitute_of_isTemplate {earlier later both : Bindings} (hearlier : earlier.isEmpty = false)
    (hboth : both.isEmpty = false) (ht : t.isTemplate = true)
    (h : ∀ name ∈ t.freeNames, ∃ value,
      earlier.get? name = some value ∧ both.get? name = some (value.substitute later)) :
    (t.substitute earlier).substitute later = t.substitute both := by
  induction t using induction_on_parts with
  | step t ih =>
    rw [isTemplate, everywhere_iff] at ht
    by_cases hframe : t.shape.isFrame = true
    · rw [freeNames_of_isFrame hframe] at h
      have hparts : t.shape.map (fun part => (part.substitute earlier).substitute later) =
          t.shape.map (·.substitute both) :=
        Shape.map_congr fun part hpart => ih part hpart (ht.2 part hpart) fun name hname =>
          h name (List.mem_flatMap.mpr ⟨part, hpart, hname⟩)
      rw [substitute_of_isFrame hframe, substitute_of_isFrame hframe, substitute_of_isFrame, Shape.map_map, hparts]
      exact (isFrame_map _ _).trans hframe
    · cases hshape : t.shape with
      | generic g =>
        obtain ⟨value, hvalue, hvalue'⟩ := h g.name ((mem_freeNames_generic hshape g.name).mpr rfl)
        rw [substitute_eq t hearlier, substitute_eq t hboth, hshape]
        simp only [hvalue, hvalue', Option.getD_some]
      | nullable base =>
        have hmem : base ∈ t.shape.parts := by simp [hshape, Shape.parts]
        rw [freeNames_nullable hshape] at h
        have hbase := ih base hmem (ht.2 base hmem) h
        rw [substitute_eq t hearlier, substitute_eq t hboth, hshape]
        simp only
        cases hlater : later.isEmpty with
        | true => rw [substitute_of_isEmpty hlater, ← hbase, substitute_of_isEmpty hlater]
        | false => rw [substitute_nullable _ hlater, hbase]
      | _ => simp_all [Shape.isFrame]

end Ty

/-- The members of a `table` are templates, in which only members of arrays mention the element. -/
theorem Prototype.isTemplate_of_mem {target : PrototypeTarget} :
    ∀ found ∈ (table target).members, found.type.isTemplate = true ∧
      ∀ name ∈ found.type.freeNames, target = .array ∧ name = elementName := by
  cases target <;> decide +kernel

/-- `member?` after a `substitute` is the one at the element after it. What coroutines yield is mentioned by none of
their members. -/
theorem Prototype.member?_substitute {target : PrototypeTarget} {element element' : Ty} {bindings : Bindings}
    (h : target = .array → element' = element.substitute bindings) (name : String) :
    member? target name element' = (member? target name element).map (·.substitute bindings) := by
  rw [member?, member?, Option.map_map]
  cases hfound : (table target).member? name with
  | none => rfl
  | some found =>
    obtain ⟨htemplate, hnames⟩ := isTemplate_of_mem found (List.mem_of_find?_eq_some hfound)
    refine congrArg some (Ty.substitute_substitute_of_isTemplate rfl rfl htemplate fun name hname => ?_).symm
    obtain ⟨rfl, rfl⟩ := hnames name hname
    exact ⟨element, rfl, congrArg some (h rfl)⟩

/-! ## Members -/

/-- Whether the members of values are told by the type itself, unlike those of interfaces, which may inherit. -/
def Shape.hasOwnMembers {α : Type} : Shape α → Bool
  | .array _ | .coroutine _ | .struct _ | .constructed _ | .cls _ => true
  | _ => false

namespace Ty

variable {t : Ty}

/-- The member that the values of a type have under a name, if the type itself tells. -/
def ownMember? (t : Ty) (name : String) : Option Ty :=
  match t.shape with
  | .array elem => Prototype.member? .array name elem
  | .coroutine s => Prototype.member? .coroutine name s.result
  | .struct body => (body.field? name).map (·.type)
  | .constructed c => (c.params.find? (·.name == name)).map (·.type)
  | .cls body => Typing.classMember? body name
  | _ => none

theorem isPassedThrough_of_hasOwnMembers (ht : t.shape.hasOwnMembers = true) : t.shape.isPassedThrough = true := by
  cases hshape : t.shape <;> simp_all [Shape.hasOwnMembers, Shape.isPassedThrough]

theorem hasOwnMembers_substitute (ht : t.shape.hasOwnMembers = true) (bindings : Bindings) :
    (t.substitute bindings).shape.hasOwnMembers = true := by
  rw [substitute_of_isPassedThrough (isPassedThrough_of_hasOwnMembers ht), replaced]
  cases hshape : t.shape <;> simp_all [Shape.mapUnder, Shape.hasOwnMembers]

end Ty

/-- `substitute` in fields leaves their names, so that they are found alike. -/
theorem Ty.find?_fields_substitute (fields : List (Field Ty)) (bindings : Bindings) (name : String) :
    ((Shape.mapFields (·.substitute (bindings.shadow [])) fields).find? (·.name == name)).map (·.type) =
      ((fields.find? (·.name == name)).map (·.type)).map (·.substitute bindings) := by
  rw [Bindings.shadow_nil, Shape.mapFields, List.find?_map, Option.map_map, Option.map_map]
  rfl

namespace Typing

theorem methodType_substitute (m : Method Ty) (bindings : Bindings) :
    (methodType m).substitute bindings =
      methodType
        { m with signature := m.signature.mapUnder fun own part => part.substitute (bindings.shadow own) } := by
  obtain ⟨names, signature, isStatic, origin⟩ := m
  have hmethod (s : Signature Ty) : methodType ⟨names, s, isStatic, origin⟩ = ⟨.fn s, origin⟩ := by
    cases origin <;> rfl
  rw [hmethod, hmethod, Ty.substitute_of_isPassedThrough rfl]
  rfl

/-- `classMember?` finds the same members after `substitute`, of the types that are replaced like them. -/
theorem classMember?_substitute {body body' : ClassBody Ty} {bindings : Bindings}
    (h : (Shape.cls body).mapUnder (fun own part => part.substitute (bindings.shadow own)) = .cls body')
    (name : String) :
    classMember? body' name = (classMember? body name).map (·.substitute bindings) := by
  obtain rfl := Shape.cls.inj h
  rw [classMember?, classMember?]
  simp only [Bindings.shadow_nil, Shape.mapMethods, List.find?_map, Function.comp_def]
  cases body.attributes.find? fun a => a.name == name && !a.isStatic with
  | some a => rfl
  | none =>
    simp only [Option.map_none, Option.map_map, Function.comp_def, methodType_substitute]

end Typing

/-- `ownMember?` commutes with `substitute`. -/
theorem Ty.ownMember?_substitute {t : Ty} (ht : t.shape.hasOwnMembers = true) (bindings : Bindings) (name : String) :
    (t.substitute bindings).ownMember? name = (t.ownMember? name).map (·.substitute bindings) := by
  rw [ownMember?, ownMember?, substitute_of_isPassedThrough (isPassedThrough_of_hasOwnMembers ht), replaced]
  cases hshape : t.shape with
  | array elem =>
    refine Prototype.member?_substitute (fun _ => ?_) name
    exact congrArg elem.substitute bindings.shadow_nil
  | coroutine s => exact Prototype.member?_substitute (fun h => by cases h) name
  | struct body => exact find?_fields_substitute body.fields bindings name
  | constructed c => exact find?_fields_substitute c.params bindings name
  | cls body => exact Typing.classMember?_substitute rfl name
  | _ => simp [hshape, Shape.hasOwnMembers] at ht

/-! ## Looking members up -/

namespace Typing

variable {t u : Ty} {q : Queries} {p : Tree} {r : Reference Ty} {d : TypeDeclForm} {c c₁ : Checker}

/-- `instanceMember` looks a member up in what the type stands for. `memberNotFound` names the type as it was given. -/
theorem run_instanceMember_of_resolveDeep (hresolve : (q.resolveDeep t).run c = .ok (u, c₁))
    (hu : u.shape.hasOwnMembers = true) (name : String) :
    (instanceMember q t name).run c = .ok ((u.ownMember? name).getD (memberNotFound name t), c₁) := by
  rw [instanceMember, Search.run_bind_of_ok hresolve, Ty.ownMember?]
  cases hshape : u.shape with
  | array _ | coroutine _ | struct _ | constructed _ | cls _ => rfl
  | _ => simp [hshape, Shape.hasOwnMembers] at hu

/-- `instanceMember` of a type that `hasOwnMembers` looks there, without any other question. -/
theorem run_instanceMember_of_hasOwnMembers (ht : t.shape.hasOwnMembers = true) (name : String) :
    (instanceMember q t name).run c = .ok ((t.ownMember? name).getD (memberNotFound name t), c) := by
  have hself : q.resolveDeep t = pure t := by
    cases hshape : t.shape <;> simp_all [Queries.resolveDeep, Ty.reference?, Shape.hasOwnMembers]
  exact run_instanceMember_of_resolveDeep (by rw [hself]; rfl) ht name

/-! ## Named types -/

/-- At a state of the checker, a named type names a declaration whose type is `t`. It has as many arguments as the
declaration has parameters, or none. If it has been resolved before, what is kept for it is the type at these arguments;
the state keeps named types by the texts of their arguments, so it might be another one. -/
structure Declares (p : Tree) (depth references : Nat) (c : Checker) (r : Reference Ty) (d : TypeDeclForm) (t : Ty) :
    Prop where
  form : p.form r.decl = .ok (.typeDecl d)
  type : ∃ c₁, ((answers p depth (references + 1)).typeOf r.decl).run { c with memo := c.memo.mark.2 } = .ok (t, c₁)
  args : r.args = [] ∨ r.args.length = (p.genericNames d.generics).length
  kept : ∀ u ∈ c.resolved.get? r.key, u = t.substitute (.zip (p.genericNames d.generics) r.args)
  within : references < c.settings.maxReferenceDepth

/-- `expand` of a named type gives the type of its declaration with the arguments in place of the parameters. -/
theorem run_expand (hform : p.form r.decl = .ok (.typeDecl d)) (htype : (q.typeOf r.decl).run c = .ok (t, c₁))
    (hargs : r.args = [] ∨ r.args.length = (p.genericNames d.generics).length) (ht : t.shape.hasOwnMembers = true) :
    ∃ c', (expand p q r).run c = .ok (t.substitute (.zip (p.genericNames d.generics) r.args), c') := by
  have hsettled : t.isPlaceholder = false := by
    cases hshape : t.shape <;> simp_all [Ty.isPlaceholder, Ty.problem?, Shape.hasOwnMembers]
  have harity : ¬ (!r.args.isEmpty && decide (r.args.length ≠ (p.genericNames d.generics).length)) = true := by
    rcases hargs with hargs | hargs <;> simp [hargs]
  have hown := Ty.hasOwnMembers_substitute ht (.zip (p.genericNames d.generics) r.args)
  let counted : Checker := { c₁ with resolutions := c₁.resolutions + 1 }
  have hcount : (modify fun c => { c with resolutions := c.resolutions + 1 } : Infer PUnit).run c₁ =
    .ok ((), counted) := rfl
  have hsettings : Infer.settings.run counted = .ok (c₁.settings, counted) := rfl
  rw [expand, Search.run_bind_of_ok (Search.run_ofWalk_eq_ok.mpr ⟨hform, rfl⟩)]
  simp only
  rw [Search.run_bind_of_ok htype, if_neg (by simp [hsettled]), if_neg harity]
  -- only a class is logged, and nothing is followed further
  cases hshape : (t.substitute (.zip (p.genericNames d.generics) r.args)).shape with
  | cls body =>
    simp only
    rw [Search.run_bind_of_ok hcount, Search.run_bind_of_ok hsettings]
    split
    · exact ⟨_, rfl⟩
    · exact ⟨_, rfl⟩
  | array _ | coroutine _ | struct _ | constructed _ => exact ⟨_, rfl⟩
  | _ => simp [hshape, Shape.hasOwnMembers] at hown

/-- `resolve` of a named type gives the type of its declaration with the arguments in place of the parameters. -/
theorem Declares.run_resolve {depth references : Nat} (h : Declares p depth references c r d t)
    (ht : t.shape.hasOwnMembers = true) :
    ∃ c', ((answers p (depth + 1) references).resolve r).run c =
      .ok (t.substitute (.zip (p.genericNames d.generics) r.args), c') := by
  change ∃ c', (resolve p (answers p depth (references + 1)) references r).run c = _
  have hget (c : Checker) : (get : Infer Checker).run c = .ok (c, c) := rfl
  have hset (c' : Checker) : (set c' : Infer PUnit).run c = .ok ((), c') := rfl
  rw [resolve, Search.run_bind_of_ok (hget c)]
  cases hkept : c.resolved.get? r.key with
  | some u =>
    obtain rfl := h.kept u hkept
    exact ⟨c, rfl⟩
  | none =>
    obtain ⟨c₁, htype⟩ := h.type
    obtain ⟨c₂, hexpand⟩ := run_expand h.form htype h.args ht
    simp only
    rw [if_neg (by simpa using h.within), Search.run_bind_of_ok (hset _), Search.run_bind_of_ok hexpand,
      Search.run_bind_of_ok (hget c₂)]
    split
    · exact ⟨_, rfl⟩
    · exact ⟨_, rfl⟩

/-- `instanceMember` commutes with `substitute`. A member is found in an instance of a struct, a class, an array, a
coroutine or a constructor if it is found in the type itself, and then it is the instance of what is found there. So a
member of a named type is that of its declaration, with the arguments in place of the parameters. -/
theorem instanceMember_substitute (t : Ty) (ht : t.shape.hasOwnMembers = true) (name : String) :
    (∀ (q : Queries) (c : Checker) (bindings : Bindings),
      (∃ found, t.ownMember? name = some found ∧ (instanceMember q t name).run c = .ok (found, c) ∧
        (instanceMember q (t.substitute bindings) name).run c = .ok (found.substitute bindings, c)) ∨
      (t.ownMember? name = none ∧ (instanceMember q t name).run c = .ok (memberNotFound name t, c) ∧
        (instanceMember q (t.substitute bindings) name).run c =
          .ok (memberNotFound name (t.substitute bindings), c))) ∧
    ∀ {p : Tree} {depth references : Nat} {c : Checker} {r : Reference Ty} {d : TypeDeclForm} (origin : Option NodeId),
      Declares p depth references c r d t →
      ∃ c', (instanceMember (answers p (depth + 1) references) ⟨.ref r, origin⟩ name).run c =
        .ok (((t.ownMember? name).map (·.substitute (.zip (p.genericNames d.generics) r.args))).getD
          (memberNotFound name ⟨.ref r, origin⟩), c') := by
  constructor
  · intro q c bindings
    rw [run_instanceMember_of_hasOwnMembers ht,
      run_instanceMember_of_hasOwnMembers (Ty.hasOwnMembers_substitute ht bindings), Ty.ownMember?_substitute ht]
    cases t.ownMember? name with
    | some found => exact .inl ⟨found, rfl, rfl, rfl⟩
    | none => exact .inr ⟨rfl, rfl, rfl⟩
  · intro p depth references c r d origin hdeclares
    obtain ⟨c', hresolve⟩ := hdeclares.run_resolve ht
    have hdeep : ((answers p (depth + 1) references).resolveDeep ⟨.ref r, origin⟩).run c = .ok (_, c') := hresolve
    rw [← Ty.ownMember?_substitute ht]
    exact ⟨c', run_instanceMember_of_resolveDeep hdeep (Ty.hasOwnMembers_substitute ht _) name⟩

/-- `type Stack<T> = T[]`. -/
def stack : Tree where
  nodes := #[
    { form := .genericParam "T" none, parent := some 3 },
    { form := .reference { name := "T", target := some 0 } [], parent := some 2 },
    { form := .arrayType 1, parent := some 3 },
    { form := .typeDecl { name := "Stack", generics := [0], definition := 2 } }]

/-- The type that `Stack` is declared with. -/
def stackType : Ty :=
  ⟨.array ⟨.generic { name := "T" }, some 0⟩, some 2⟩

/-- `pop` gives an element of `Stack<u8>` or null. With `any` for the parameter it gives `any`, which may be null
already, and `peek` is found in neither. -/
theorem stack_members :
    Declares stack 4 0 {} ⟨3, "Stack", [.prim .u8]⟩ { name := "Stack", generics := [0], definition := 2 } stackType ∧
      stackType.shape.hasOwnMembers = true ∧
      (∃ c, (instanceMember (answers stack 5 0) (.reference 3 "Stack" [.prim .u8]) "pop").run {} =
        .ok (Prototype.builtInMethod [] (.nullable (.prim .u8)), c)) ∧
      (instanceMember .exhausted (stackType.substitute ⟨[("T", .any)]⟩) "pop").run {} =
        .ok (Prototype.builtInMethod [] .any, {}) ∧
      (instanceMember .exhausted (stackType.substitute ⟨[("T", .any)]⟩) "peek").run {} =
        .ok (memberNotFound "peek" (.array .any), {}) := by
  have hdeclares : Declares stack 4 0 {} ⟨3, "Stack", [.prim .u8]⟩
      { name := "Stack", generics := [0], definition := 2 } stackType :=
    ⟨rfl, ⟨_, rfl⟩, .inr rfl, by simp, by decide⟩
  have ht : stackType.shape.hasOwnMembers = true := rfl
  refine ⟨hdeclares, ht, ?_, ?_, ?_⟩
  · exact (instanceMember_substitute stackType ht "pop").2 none hdeclares
  · rcases (instanceMember_substitute stackType ht "pop").1 .exhausted {} ⟨[("T", .any)]⟩ with
      ⟨found, hfound, -, hmember⟩ | ⟨hnone, -⟩
    · cases hfound
      exact hmember
    · cases hnone
  · rcases (instanceMember_substitute stackType ht "peek").1 .exhausted {} ⟨[("T", .any)]⟩ with
      ⟨found, hfound, -⟩ | ⟨-, -, hmember⟩
    · cases hfound
    · exact hmember

end Typing

end Ascribe
