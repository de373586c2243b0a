import Ascribe.Proofs.Assignability.Fixed
import Ascribe.Proofs.Assignability.Unresolved
import Ascribe.Typing.Access

/-!
# Members of types that conform to an interface

A class or an interface that can be assigned to an interface should have a member for every name that the interface
answers to, of a type that fits. Conformance and the lookup of members do not agree on that. A method conforms if it
shares any name with the one of the interface, among all methods that do. A member is looked up by one name: an
attribute of that name comes first, and then the first method that has it. So the member may be missing, or
be one that does not fit (`conforming_members_differ`).

What conformance does give is a method that fits, under the names it has itself. It is the member that is looked up if
no other member can be meant by the name (`Unfolding.Unambiguous`).

## Key results

- `Unfolding.run_instanceMember`: how a member of a class or an interface is looked up
- `Unfolding.Accepts.conforms`: conformance in terms of the methods that values have
- `Unfolding.Accepts.members`: what conformance gives for the lookup of members
-/

namespace Ascribe

open Assignability

namespace Ty

/-- Whether a type is a class or an interface. -/
def hasMethods (t : Ty) : Bool :=
  t.isClass || t.interface?.isSome

/-- The type of the attribute that the values of a class have under a name. -/
def attribute? (t : Ty) (name : String) : Option Ty :=
  match t.shape with
  | .cls body => (body.attributes.find? fun a => a.name == name && !a.isStatic).map (·.type)
  | _ => none

theorem shape_of_hasMethods {t : Ty} (h : t.hasMethods = true) :
    (∃ body, t.shape = .cls body) ∨ ∃ body, t.shape = .interface body := by
  simp only [hasMethods, isClass, interface?, Bool.or_eq_true] at h
  cases hshape : t.shape <;> simp_all

end Ty

theorem Typing.shape_methodType (m : Method Ty) : (methodType m).shape = .fn m.signature := by
  obtain ⟨names, signature, isStatic, origin⟩ := m
  cases origin <;> rfl

namespace Unfolding

variable {f : Unfolding} {a i : Ty} {body : InterfaceBody Ty} {name : String}

/-! ## Lookup -/

/-- The methods that the values of a class or an interface have. -/
def instanceMethods (f : Unfolding) (t : Ty) : List (Method Ty) :=
  match t.shape with
  | .cls body => body.methods.filter fun m => !m.isStatic
  | .interface body => f.interfaceMethods body
  | _ => []

/-- The member that the values of a class or an interface have under a name: an attribute, or else the first method
that has the name. -/
def member? (f : Unfolding) (t : Ty) (name : String) : Option Ty :=
  (t.attribute? name).or (((f.instanceMethods t).find? (·.names.contains name)).map Typing.methodType)

/-- `instanceMember` looks a member up as `member?` of the unfolding does. -/
theorem run_instanceMember {q : Queries} (hq : q.resolve = f.resolver) (ha : a.hasMethods = true) (name : String)
    (c : Checker) : (Typing.instanceMember q a name).run c =
      .ok ((f.member? a name).getD (Typing.memberNotFound name a), c) := by
  have hmethods (body : InterfaceBody Ty) : q.interfaceMethods body = pure (f.interfaceMethods body) := by
    rw [Queries.interfaceMethods, hq, resolver_interfaceMethods]
  obtain ⟨body, hshape⟩ | ⟨body, hshape⟩ := Ty.shape_of_hasMethods ha
  · have hself : q.resolveDeep a = pure a := by simp [Queries.resolveDeep, Ty.reference?, hshape]
    have hmember : Typing.classMember? body name = f.member? a name := by
      simp only [Typing.classMember?, member?, Ty.attribute?, instanceMethods, hshape, List.find?_filter]
      cases body.attributes.find? fun a => a.name == name && !a.isStatic with
      | some x => rfl
      | none => simp [Bool.and_comm]
    rw [Typing.instanceMember, hself, pure_bind, hshape, ← hmember]
    rfl
  · have hself : q.resolveDeep a = pure a := by simp [Queries.resolveDeep, Ty.reference?, hshape]
    rw [Typing.instanceMember, hself, pure_bind, hshape, member?, Ty.attribute?, instanceMethods, hshape]
    simp only [hmethods, pure_bind]
    rfl

/-- `member?` finds the first method that has a name, unless it finds an attribute. -/
theorem member?_of_method {k : Method Ty} (hk : k ∈ f.instanceMethods a) (hname : k.names.contains name = true) :
    ∃ found ∈ f.instanceMethods a, found.names.contains name = true ∧
      f.member? a name = (a.attribute? name).or (some (Typing.methodType found)) := by
  have hsome : ((f.instanceMethods a).find? (·.names.contains name)).isSome = true := by
    rw [List.find?_isSome]
    exact ⟨k, hk, hname⟩
  obtain ⟨found, hfound⟩ := Option.isSome_iff_exists.mp hsome
  have hfoundName := List.find?_some hfound
  refine ⟨found, List.mem_of_find?_eq_some hfound, hfoundName, ?_⟩
  rw [member?, hfound, Option.map_some]

/-- `member?` finds nothing but methods in an interface. -/
theorem exists_method_of_member? (hi : i.shape = .interface body) {t : Ty} (h : f.member? i name = some t) :
    ∃ m ∈ f.interfaceMethods body, m.names.contains name = true ∧ Typing.methodType m = t := by
  rw [member?, Ty.attribute?, instanceMethods, hi, Option.none_or, Option.map_eq_some_iff] at h
  obtain ⟨m, hfound, rfl⟩ := h
  have hname := List.find?_some hfound
  exact ⟨m, List.mem_of_find?_eq_some hfound, hname, rfl⟩

/-! ## Conformance -/

/-- `Conforms` holds of interfaces that are the same. -/
theorem conforms_of_same (hf : f.Respects) {body' : InterfaceBody Ty} (ha : a.shape = .interface body')
    (hi : i.shape = .interface body) (hsame : a.same i = true) :
    Conforms f.Accepts (f.interfaceMethods body') (f.interfaceMethods body) := by
  have hbodies := congrArg Ty.shape ((Ty.same_iff_erase_eq _ _).mp hsame)
  simp only [Ty.erase_shape, ha, hi, Shape.erasedWith_interface, Shape.interface.injEq, InterfaceBody.mk.injEq]
    at hbodies
  have hmethods := interfaceMethods_congr hf hbodies.1 hbodies.2
  have hself : Conforms (fun x y => x.same y = true) (f.interfaceMethods body) (f.interfaceMethods body) := by
    intro m hm
    refine ⟨m, hm, ?_, rfl, List.forall₂_same.mpr fun x _ => x.type.same_refl, Ty.same_refl _⟩
    simp [MethodNames.overlaps, MethodNames.contains, MethodNames.toList]
  have hconforms := (conforms_congr (fun x y => by rw [Ty.same_erase_erase]) hmethods rfl).mpr hself
  exact hconforms.mono fun _ _ => .of_same

/-- `Conforms` holds of a class or an interface that is accepted for an interface. -/
theorem Accepts.conforms (hf : f.Respects) (ha : a.hasMethods = true) (hi : i.shape = .interface body)
    (h : f.Accepts a i) : Conforms f.Accepts (f.instanceMethods a) (f.interfaceMethods body) := by
  obtain ⟨body', hshape⟩ | ⟨body', hshape⟩ := Ty.shape_of_hasMethods ha
  · have hname : Comparer.byName a i = false := by simp [Comparer.byName, Ty.reference?, hshape, hi]
    have hrule := h.rule hname
    simpa [instanceMethods, Rule, Ty.same_eq, Shape.agree, Ty.isNever, Ty.isAny, Ty.isPrimitive, Ty.primitive?,
      Ty.isError, Ty.problem?, Proper, General, Structural, Ty.reference?, hshape, hi] using hrule
  · have hname : Comparer.byName a i = false := by simp [Comparer.byName, Ty.reference?, hshape, hi]
    have hrule := h.rule hname
    rw [instanceMethods, hshape]
    by_cases hsame : a.same i = true
    · exact conforms_of_same hf hshape hi hsame
    · simpa [Rule, hsame, Ty.isNever, Ty.isAny, Ty.isPrimitive, Ty.primitive?, Ty.isError, Ty.problem?, Proper,
        General, Structural, Ty.reference?, hshape, hi] using hrule

/-- `methodType` is accepted for that of a method if `SignatureFits`. -/
theorem Accepts.methodType {m k : Method Ty} (h : SignatureFits f.Accepts k.signature m.signature) :
    f.Accepts (Typing.methodType k) (Typing.methodType m) := by
  obtain ⟨hkind, hparams, hresult⟩ := h
  -- all parts are accepted at one depth
  let pairs := (k.signature.result, m.signature.result) ::
    (k.signature.params.zip m.signature.params).map fun p => (p.2.type, p.1.type)
  have hpairs : ∀ p ∈ pairs, f.Accepts p.1 p.2 := by
    rw [List.forall₂_iff_zip] at hparams
    simp only [pairs, List.forall_mem_cons, List.forall_mem_map]
    exact ⟨hresult, fun p hp => hparams.2 hp⟩
  obtain ⟨depth, hdepth⟩ := exists_acceptsAt hpairs
  let c : Comparer Unit := ⟨f.resolver, compareWithin f.resolver depth⟩
  have hsignature : (c.signature [] k.signature m.signature).run () = .ok (true, ()) := by
    have hlength := hparams.length_eq
    rw [Comparer.signature, if_neg (by simp [hkind, hlength]), Search.run_bind_eq_ok]
    refine ⟨true, (), Search.run_allM fun p hp => Comparer.run_holds ?_, Comparer.run_holds ?_⟩
    · exact hdepth (p.2.type, p.1.type) (List.mem_cons_of_mem _ (List.mem_map.mpr ⟨p, hp, rfl⟩))
    · exact hdepth _ List.mem_cons_self
  refine ⟨depth + 1, ?_⟩
  rw [AcceptsAt, compareWithin]
  by_cases hsame : (Typing.methodType k).same (Typing.methodType m) = true
  · rw [Comparer.step, Ty.beq_eq_same, if_pos hsame]
    rfl
  · have hspecial : Comparer.isSpecial (Typing.methodType k) (Typing.methodType m) = false := by
      simp only [Bool.not_eq_true] at hsame
      simp [Comparer.isSpecial, hsame, Ty.isNever, Ty.isAny, Ty.isPrimitive, Ty.primitive?, Ty.isError, Ty.problem?,
        Ty.isNullable, Ty.reference?, Typing.shape_methodType]
    have hunnamed (m : Method Ty) : (Typing.methodType m).reference? = none := by
      simp [Ty.reference?, Typing.shape_methodType]
    rw [Comparer.step_of_not_special hspecial, Comparer.general, hunnamed, hunnamed, Comparer.structural,
      Typing.shape_methodType, Typing.shape_methodType]
    exact Search.run_bind_eq_ok.mpr ⟨true, (), hsignature, rfl⟩

/-- Only one member of a type can be meant by a name of a method of an interface. -/
structure Unambiguous (f : Unfolding) (a : Ty) (required : Method Ty) (name : String) : Prop where
  /-- No attribute has the name. -/
  attributes : a.attribute? name = none
  /-- Methods that share any name with the method have this one. -/
  aliases : ∀ k ∈ f.instanceMethods a, k.names.overlaps required.names = true → k.names.contains name = true
  /-- Methods that have the name are the same. -/
  overloads : ∀ k ∈ f.instanceMethods a, ∀ k' ∈ f.instanceMethods a, k.names.contains name = true →
    k'.names.contains name = true → k = k'

/-- `Accepts` carries over to members. A type that is accepted for an interface has, for a method of the interface that
`instanceMember` finds under a name, a method that shares a name with it and has a type that fits. It has some member
under each of the names of that method, and under the given name it has that method if no other member can be meant. -/
theorem Accepts.members (hf : f.Respects) {q : Queries} (hq : q.resolve = f.resolver) (ha : a.hasMethods = true)
    (hi : i.shape = .interface body) (h : f.Accepts a i) {c c' : Checker} {t : Ty}
    (hrun : (Typing.instanceMember q i name).run c = .ok (t, c')) (hfound : t.isError = false) :
    ∃ m ∈ f.interfaceMethods body, m.names.contains name = true ∧ Typing.methodType m = t ∧
      ∃ k ∈ f.instanceMethods a, k.names.overlaps m.names = true ∧ f.Accepts (Typing.methodType k) t ∧
        (∀ other, k.names.contains other = true → ∃ u, f.member? a other = some u ∧
          (Typing.instanceMember q a other).run c = .ok (u, c)) ∧
        (f.Unambiguous a m name → ∃ u, (Typing.instanceMember q a name).run c = .ok (u, c) ∧ u.isError = false ∧
          f.Accepts u t) := by
  have hlookup (name : String) := run_instanceMember hq ha name c
  obtain ⟨m, hm, hname, rfl⟩ : ∃ m ∈ f.interfaceMethods body, m.names.contains name = true ∧
      Typing.methodType m = t := by
    rw [run_instanceMember hq (by simp [Ty.hasMethods, Ty.interface?, hi]) name c] at hrun
    obtain ⟨rfl, -⟩ := Prod.mk.inj (Except.ok.inj hrun)
    cases hmember : f.member? i name with
    | none => simp [hmember, Typing.memberNotFound, Ty.error, Ty.isError, Ty.problem?, Ty.of] at hfound
    | some t => exact exists_method_of_member? hi hmember
  obtain ⟨k, hk, hnames, hfits⟩ := h.conforms hf ha hi m hm
  refine ⟨m, hm, hname, rfl, k, hk, hnames, .methodType hfits, fun other hother => ?_, fun hunambiguous => ?_⟩
  · obtain ⟨found, -, -, hmember⟩ := member?_of_method hk hother
    obtain ⟨u, hu⟩ : ∃ u, f.member? a other = some u := by
      rw [hmember]
      cases a.attribute? other <;> simp
    exact ⟨u, hu, by rw [hlookup, hu, Option.getD_some]⟩
  · -- the method that fits is the one that is found
    have hkname := hunambiguous.aliases k hk hnames
    obtain ⟨found, hmem, hfoundName, hmember⟩ := member?_of_method hk hkname
    obtain rfl := hunambiguous.overloads k hk found hmem hkname hfoundName
    rw [hunambiguous.attributes, Option.none_or] at hmember
    refine ⟨Typing.methodType k, by rw [hlookup, hmember, Option.getD_some], ?_, .methodType hfits⟩
    simp [Ty.isError, Ty.problem?, Typing.shape_methodType]

end Unfolding

/-- Lookup of members where what named types stand for is given. -/
def Unfolding.queries (f : Unfolding) : Queries :=
  { Queries.exhausted with resolve := f.resolver }

/-! ## Figures -/

namespace Figures

/-- A method without parameters. -/
def method (names : MethodNames) (result : Ty) : Method Ty :=
  { names, signature := { result } }

/-- `Named` is an interface with a method `name`. -/
def unfolding : Unfolding :=
  fun _ => .of (.interface { methods := [method ⟨"name", []⟩ (.nullable .string)] })

/-- An interface below `Named` with a method `area`, which is also called `size`. -/
def figure : Ty :=
  .of (.interface { methods := [method ⟨"area", ["size"]⟩ (.prim .u16)], supers := [.reference 0 "Named" []] })

/-- A class with an attribute and methods for all names of `figure`. -/
def square : Ty :=
  .of (.cls {
    attributes := [{ name := "side", type := .prim .u8 }]
    methods := [method ⟨"size", ["area"]⟩ (.prim .u8), method ⟨"name", []⟩ .string] })

end Figures

open Figures in
theorem square_members :
    Figures.unfolding.Accepts square figure ∧
      ∃ u, (Typing.instanceMember Figures.unfolding.queries square "name").run {} = .ok (u, {}) ∧
        u.isError = false ∧
        Figures.unfolding.Accepts u (Typing.methodType (method ⟨"name", []⟩ (.nullable .string))) := by
  have haccepts : Figures.unfolding.Accepts square figure := ⟨6, rfl⟩
  have hf : Figures.unfolding.Respects := fun _ _ _ => Ty.same_refl _
  refine ⟨haccepts, ?_⟩
  have hrun : (Typing.instanceMember Figures.unfolding.queries figure "name").run {} =
      .ok (Typing.methodType (method ⟨"name", []⟩ (.nullable .string)), {}) := rfl
  obtain ⟨m, hm, hname, -, k, -, -, -, -, hmember⟩ := haccepts.members hf rfl rfl rfl hrun rfl
  have hmethods : Figures.unfolding.instanceMethods square =
      [method ⟨"size", ["area"]⟩ (.prim .u8), method ⟨"name", []⟩ .string] := rfl
  refine hmember ⟨rfl, ?_, ?_⟩
  · obtain rfl : m = method ⟨"name", []⟩ (.nullable .string) := by
      rcases List.mem_cons.mp hm with rfl | hm
      · cases hname
      · exact List.mem_singleton.mp hm
    rw [hmethods]
    decide +kernel
  · -- only the second method has the name
    have honly : ∀ k ∈ Figures.unfolding.instanceMethods square, k.names.contains "name" = true →
        k = method ⟨"name", []⟩ .string := by
      rw [hmethods]
      intro k hk hkname
      rcases List.mem_cons.mp hk with rfl | hk
      · cases hkname
      · exact List.mem_singleton.mp hk
    exact fun k hk k' hk' hkname hkname' => (honly k hk hkname).trans (honly k' hk' hkname').symm

/-- Three classes that conform to an interface with a method `area`, also called `size`. The first one has no
`size`; under that name the second one has an attribute first, and the third one another method. -/
theorem conforming_members_differ :
    let area : Method Ty := Figures.method ⟨"area", ["size"]⟩ (.prim .u8)
    let interface : Ty := .of (.interface { methods := [area] })
    let classes : List Ty := [
      .of (.cls { methods := [Figures.method ⟨"area", []⟩ (.prim .u8)] }),
      .of (.cls { attributes := [{ name := "size", type := .string }], methods := [area] }),
      .of (.cls { methods := [Figures.method ⟨"size", []⟩ .string, area] })]
    ∀ a ∈ classes, compareUnresolved a interface = .ok (.ok ()) ∧
      ∃ u, (Typing.instanceMember Unfolding.itself.queries a "size").run {} = .ok (u, {}) ∧
        (u = Typing.memberNotFound "size" a ∨
          ∃ why, compareUnresolved u (Typing.methodType area) = .ok (.error why)) := by
  simp only [List.forall_mem_cons]
  exact ⟨⟨rfl, _, rfl, .inl rfl⟩, ⟨rfl, _, rfl, .inr ⟨_, rfl⟩⟩, ⟨rfl, _, rfl, .inr ⟨_, rfl⟩⟩, by simp⟩

end Ascribe
