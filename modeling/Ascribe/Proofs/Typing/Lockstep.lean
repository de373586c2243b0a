import Ascribe.Proofs.Assignability.Lockstep
import Ascribe.Typing.Answers

/-!
# Typing rules in lockstep

Every typing rule asks its questions of `Queries` and otherwise only reads the settings and extends the log
of instantiations. So if the answers to the questions are in lockstep with other answers
(`Queries.InStep`), and reading the settings and logging is (`Lockstep.Effects`), then each rule is in
lockstep with itself under the other answers.

## Key results

- `Typing.ruleFor_rel`: the rule of every form
- `Typing.expected_rel`, `Typing.common_rel`, `Typing.instanceMember_rel`: the other questions
- `Typing.expand_rel`: what a named type stands for, before the memo
- `Queries.above_inStep`: a whole level of answers

The two questions that go through a memo, `Typing.typeOf` and `Typing.resolve`, are left to each lockstep.
-/

namespace Ascribe

variable {L : Lockstep Checker Checker}

/-- Everything but asking a question that a rule does with the state of a checker. -/
structure Lockstep.Effects (L : Lockstep Checker Checker) : Prop where
  settings : L.Rel Infer.settings Infer.settings
  logClass : ∀ decl name args, L.Rel (Infer.logClass decl name args) (Infer.logClass decl name args)
  logFunction : ∀ decl name args, L.Rel (Infer.logFunction decl name args) (Infer.logFunction decl name args)
  logMethod : ∀ key decl name args,
    L.Rel (Infer.logMethod key decl name args) (Infer.logMethod key decl name args)
  countResolution : L.Rel (modify fun c : Checker => { c with resolutions := c.resolutions + 1 })
    (modify fun c : Checker => { c with resolutions := c.resolutions + 1 })

/-- A search that looks at the settings only, and changes only the log of instantiations and the counter of
resolutions. -/
def Infer.Aside {α : Type} (x : Infer α) : Prop :=
  ∃ answer : Settings → α, ∀ c : Checker, ∃ c', x.run c = .ok (answer c.settings, c') ∧
    c'.settings = c.settings ∧ c'.memo = c.memo ∧ c'.resolved = c.resolved

namespace Infer.Aside

theorem settings : Aside Infer.settings :=
  ⟨id, fun c => ⟨c, rfl, rfl, rfl, rfl⟩⟩

theorem logClass (decl : NodeId) (name : String) (args : List Ty) : Aside (Infer.logClass decl name args) :=
  ⟨fun _ => Instantiation.keyOf name args, fun _ => ⟨_, rfl, rfl, rfl, rfl⟩⟩

theorem logFunction (decl : NodeId) (name : String) (args : List Ty) : Aside (Infer.logFunction decl name args) :=
  ⟨fun _ => Instantiation.keyOf name args, fun _ => ⟨_, rfl, rfl, rfl, rfl⟩⟩

theorem logMethod (key : String) (decl : NodeId) (name : String) (args : List Ty) :
    Aside (Infer.logMethod key decl name args) := by
  refine ⟨fun _ => key ++ "::" ++ Instantiation.keyOf name args, fun c => ?_⟩
  refine ⟨{ c with registry := (c.registry.addMethod key decl name args).2 }, ?_, rfl, rfl, rfl⟩
  have hkey : (c.registry.addMethod key decl name args).1 = key ++ "::" ++ Instantiation.keyOf name args := by
    unfold Instantiation.Registry.addMethod
    dsimp only
    split <;> rfl
  rw [← hkey]
  rfl

theorem countResolution : Aside (modify fun c : Checker => { c with resolutions := c.resolutions + 1 }) :=
  ⟨fun _ => (), fun _ => ⟨_, rfl, rfl, rfl, rfl⟩⟩

end Infer.Aside

/-- `Effects` holds of a lockstep that ignores what is `Aside` of the memos. -/
theorem Lockstep.Effects.of_aside (h : ∀ {α : Type} {x : Infer α}, Infer.Aside x → L.Rel x x) :
    L.Effects where
  settings := h .settings
  logClass decl name args := h (.logClass decl name args)
  logFunction decl name args := h (.logFunction decl name args)
  logMethod key decl name args := h (.logMethod key decl name args)
  countResolution := h .countResolution

/-- Two families of answers that are in lockstep, question by question. -/
structure Queries.InStep (L : Lockstep Checker Checker) (q r : Queries) : Prop where
  typeOf : ∀ node, L.Rel (q.typeOf node) (r.typeOf node)
  resolve : Resolver.InStep L q.resolve r.resolve
  expected : ∀ node, L.Rel (q.expected node) (r.expected node)
  common : ∀ types, L.Rel (q.common types) (r.common types)
  member : ∀ t name, L.Rel (q.member t name) (r.member t name)
  compare : ∀ assumed actual expected,
    L.Rel (q.compare assumed actual expected) (r.compare assumed actual expected)

namespace Queries

theorem exhausted_inStep : exhausted.InStep L exhausted where
  typeOf _ := L.exhausted
  resolve _ := L.exhausted
  expected _ := L.exhausted
  common _ := L.exhausted
  member _ _ := L.exhausted
  compare _ _ _ := L.exhausted

namespace InStep

variable {q r : Queries} (h : q.InStep L r)

include h

theorem typesOf (nodes : List NodeId) : L.Rel (q.typesOf nodes) (r.typesOf nodes) :=
  Lockstep.mapM h.typeOf nodes

theorem typeOf? (node : Option NodeId) : L.Rel (q.typeOf? node) (r.typeOf? node) :=
  Lockstep.optionMapM h.typeOf node

theorem typeOrVoid (node : Option NodeId) : L.Rel (q.typeOrVoid node) (r.typeOrVoid node) :=
  L.bind (h.typeOf? node) fun _ => L.pure _

theorem resolveDeep (t : Ty) : L.Rel (q.resolveDeep t) (r.resolveDeep t) := by
  unfold Queries.resolveDeep
  split
  · exact h.resolve _
  · exact L.pure t

theorem comparer : q.comparer.InStep L r.comparer :=
  ⟨h.resolve, h.compare⟩

theorem assignable (actual expected : Ty) :
    L.Rel (q.assignable actual expected) (r.assignable actual expected) :=
  h.comparer.holds [] actual expected

theorem interfaceMethods (body : InterfaceBody Ty) :
    L.Rel (q.interfaceMethods body) (r.interfaceMethods body) :=
  h.resolve.interfaceMethods body

theorem expectedResolved (node : NodeId) : L.Rel (q.expectedResolved node) (r.expectedResolved node) := by
  refine L.bind (h.expected node) fun t => ?_
  cases t with
  | none => exact L.pure none
  | some t => exact Lockstep.map some (h.resolveDeep t.stripNullable)

theorem signatureOf (node : NodeId) : L.Rel (q.signatureOf node) (r.signatureOf node) :=
  L.bind (h.typeOf node) fun _ => L.pure _

theorem commonType (types : List Ty) : L.Rel (q.commonType types) (r.commonType types) := by
  unfold Queries.commonType
  dsimp only
  split
  · exact L.pure _
  · split
    · exact L.pure _
    · split
      · exact L.pure _
      · refine L.bind (h.common _) fun found => ?_
        cases found with
        | none => exact L.pure _
        | some t => exact L.pure _

end InStep

end Queries

namespace Typing

variable {q r : Queries} (h : q.InStep L r)

/-! ## Branches -/

section Branches

include h

theorem sharedField_rel (others : List (StructBody Ty)) (field : Field Ty) :
    L.Rel (sharedField q others field) (sharedField r others field) := by
  unfold sharedField
  split
  · exact L.pure none
  · exact L.bind (h.common _) fun _ => L.pure _

theorem commonStruct_rel (bodies : List (StructBody Ty)) :
    L.Rel (commonStruct q bodies) (commonStruct r bodies) := by
  cases bodies with
  | nil => exact L.pure none
  | cons head others =>
    exact L.bind (Lockstep.filterMapM (sharedField_rel h others) head.fields) fun _ => L.pure _

theorem commonArguments_rel (constructors : List (Constructed Ty)) (slots : List Nat) :
    L.Rel (commonArguments q constructors slots) (commonArguments r constructors slots) := by
  induction slots with
  | nil => exact L.pure (some [])
  | cons slot slots ih =>
    refine Lockstep.iteBind (fun _ => L.pure _) (fun _ => h.common _) fun arg => ?_
    cases arg with
    | none => exact L.pure none
    | some t => exact L.bind ih fun _ => L.pure _

theorem commonVariant_rel (constructors : List (Constructed Ty)) :
    L.Rel (commonVariant q constructors) (commonVariant r constructors) := by
  unfold commonVariant
  split
  · exact L.pure none
  · split
    · exact L.pure none
    · split
      · exact L.pure none
      · exact L.bind (commonArguments_rel h _ _) fun _ => L.pure _

theorem common_rel (candidates : List Ty) : L.Rel (common q candidates) (common r candidates) := by
  unfold common
  cases candidates with
  | nil => exact L.pure none
  | cons first rest =>
    dsimp only
    split
    · exact L.pure _
    · -- the candidates are compared with each other, in the order in which they are tried
      have hwidest (c : Ty) := Lockstep.allM (fun other => h.assignable other c) (first :: rest)
      refine L.bind (Lockstep.findM? hwidest _) fun widest => ?_
      split
      · exact L.pure _
      · -- none will do: resolved, they are numbers, structs, or constructors of one variant
        refine L.bind (Lockstep.mapM h.resolveDeep _) fun resolved => ?_
        split
        · exact L.pure _
        · split
          · exact commonStruct_rel h _
          · split
            · exact commonVariant_rel h _
            · exact L.pure none

end Branches

/-! ## Expectations -/

section Expectations

variable (p : Tree)

include h

theorem enclosingResult_rel (node : NodeId) :
    L.Rel (enclosingResult p q node) (enclosingResult p r node) := by
  refine L.bind (L.ofWalk _) fun owner => ?_
  split
  · exact L.pure none
  · split
    · exact h.typeOf? _
    · exact h.typeOf? _
    · exact h.typeOf? _
    · exact L.pure none

theorem initParam_rel (cls : NodeId) (position : Nat) :
    L.Rel (initParam p q cls position) (initParam p r cls position) := by
  unfold initParam
  split
  · split
    · exact L.pure none
    · refine L.bind (L.ofWalk _) fun form => ?_
      split
      · split
        · exact L.pure none
        · split
          · exact L.bind (h.signatureOf _) fun _ => L.pure _
          · exact L.pure none
      · exact L.pure none
  · exact L.pure none

omit p in
theorem argumentExpected_rel (callee : NodeId) (position : Nat) :
    L.Rel (argumentExpected q callee position) (argumentExpected r callee position) := by
  refine L.bind (h.typeOf callee) fun calleeType => L.bind (h.resolveDeep _) fun target => ?_
  split
  · exact L.pure _
  · exact L.pure _
  · exact L.pure none

theorem operandExpected_rel (node parent : NodeId) (op : BinaryOp) (lhs rhs : NodeId) :
    L.Rel (operandExpected p q node parent op lhs rhs) (operandExpected p r node parent op lhs rhs) := by
  -- what an operand takes from its sibling, for all operators but the logical ones
  have hsibling (sibling : NodeId) : L.Rel
      (do
        if ← Search.ofWalk (p.isNumericLiteral sibling) then
          if op.isComparison then return none else q.expected parent
        else
          let t ← q.typeOf sibling
          return if t.isError then none else some t)
      (do
        if ← Search.ofWalk (p.isNumericLiteral sibling) then
          if op.isComparison then return none else r.expected parent
        else
          let t ← r.typeOf sibling
          return if t.isError then none else some t) := by
    refine L.bind (L.ofWalk _) fun isLiteral => ?_
    split
    · split
      · exact L.pure none
      · exact h.expected parent
    · exact L.bind (h.typeOf sibling) fun _ => L.pure _
  unfold operandExpected
  dsimp only
  split
  · split
    · exact L.bind (h.typeOf lhs) fun _ => L.pure _
    · exact L.pure none
  · exact L.pure none
  · exact L.pure none
  · exact hsibling _

theorem expected_rel (node : NodeId) : L.Rel (expected p q node) (expected p r node) := by
  have hwhen (test : Prop) [Decidable test] (x : NodeId) :
      L.Rel (if test then q.expected x else pure none) (if test then r.expected x else pure none) := by
    split
    · exact h.expected x
    · exact L.pure none
  have htypeWhen (test : Prop) [Decidable test] (x : Option NodeId) :
      L.Rel (if test then q.typeOf? x else pure none) (if test then r.typeOf? x else pure none) := by
    split
    · exact h.typeOf? x
    · exact L.pure none
  unfold expected
  -- the cases are the forms that the node may be a child of
  split
  · exact L.pure none
  · split
    case h_1 => exact htypeWhen _ _
    -- a field or an element takes its part of what its literal is asked for
    case h_2 =>
      split
      · exact L.pure none
      · exact L.bind (h.expectedResolved _) fun _ => L.pure _
    case h_3 =>
      refine L.bind (h.expectedResolved _) fun t => ?_
      split
      · exact L.pure _
      · exact L.pure none
    case h_4 =>
      split
      · exact L.pure none
      · refine L.bind (h.expectedResolved _) fun t => ?_
        split
        · exact L.pure _
        · exact L.pure none
    -- a branch takes what the whole is asked for
    case h_5 => exact hwhen _ _
    case h_6 => exact hwhen _ _
    case h_7 => exact hwhen _ _
    -- a returned value or a body takes the result type that is written
    case h_8 => exact enclosingResult_rel h p _
    case h_9 => exact enclosingResult_rel h p _
    case h_10 => exact htypeWhen _ _
    case h_11 => exact htypeWhen _ _
    case h_12 =>
      split
      · exact L.pure none
      · split
        · exact L.bind (h.typeOf _) fun _ => L.pure _
        · exact L.bind (h.expectedResolved _) fun _ => L.pure _
    -- an argument takes the type of its parameter
    case h_13 =>
      split
      · exact argumentExpected_rel h _ _
      · exact L.pure none
    case h_14 =>
      split
      · exact initParam_rel h p _ _
      · exact L.pure none
    case h_15 =>
      split
      · exact L.bind (h.typeOf _) fun _ => L.pure _
      · exact L.pure none
    case h_16 => exact h.expected _
    case h_17 => exact operandExpected_rel h p _ _ _ _ _
    case h_18 => exact L.pure none

end Expectations

/-! ## Literals and names -/

section Literals

variable (p : Tree)

include h

omit p in
theorem expectedNumber_rel (node : NodeId) : L.Rel (expectedNumber q node) (expectedNumber r node) :=
  L.bind (h.expectedResolved node) fun _ => L.pure _

theorem intType_rel (effects : L.Effects) (node : NodeId) (text : String) :
    L.Rel (intType p q node text) (intType p r node text) := by
  unfold intType
  split
  · exact L.pure _
  · split
    · exact L.pure _
    · refine L.bind effects.settings fun settings => L.bind (expectedNumber_rel h node) fun kind => ?_
      cases kind with
      | none => exact L.pure _
      | some kind => exact L.pure _

omit p in
theorem floatType_rel (effects : L.Effects) (node : NodeId) (text : String) :
    L.Rel (floatType q node text) (floatType r node text) := by
  unfold floatType
  split
  · exact L.pure _
  · exact L.pure _
  · exact L.bind effects.settings fun settings => L.bind (expectedNumber_rel h node) fun _ => L.pure _

omit p in
theorem arrayType_rel (node : NodeId) (elems : List NodeId) :
    L.Rel (arrayType q node elems) (arrayType r node elems) := by
  unfold arrayType
  split
  · refine L.bind (h.expectedResolved node) fun t => ?_
    split
    · exact L.pure _
    · exact L.pure _
  · exact L.bind (h.typesOf elems) fun types => L.bind (h.commonType types) fun _ => L.pure _

theorem literalFields_rel (fields : List NodeId) :
    L.Rel (literalFields p q fields) (literalFields p r fields) := by
  induction fields with
  | nil => exact L.pure _
  | cons node rest ih =>
    simp only [literalFields]
    split
    · refine L.bind (h.typeOf node) fun type => ?_
      split
      · exact L.pure _
      · exact L.bind ih fun _ => L.pure _
    · exact ih

theorem structType_rel (fields : List NodeId) : L.Rel (structType p q fields) (structType p r fields) := by
  refine L.bind (literalFields_rel h p fields) fun found => ?_
  cases found with
  | ok fields => exact L.pure _
  | error openType => exact L.pure _

theorem nameType_rel (n : NameForm) : L.Rel (nameType p q n) (nameType p r n) := by
  unfold nameType
  split
  · exact L.pure _
  · refine L.bind (L.ofWalk _) fun form => ?_
    split
    · exact L.pure _
    · exact L.pure _
    · exact L.pure _
    · exact h.typeOf _

theorem referenceType_rel (n : NameForm) (args : List NodeId) :
    L.Rel (referenceType p q n args) (referenceType p r n args) := by
  unfold referenceType
  split
  · exact L.pure _
  · refine L.bind (L.ofWalk _) fun form => ?_
    split
    · exact L.bind (h.typesOf args) fun _ => L.pure _
    · split
      · exact h.typeOf _
      · exact L.pure _
    · exact L.pure _

theorem thisType_rel (node : NodeId) : L.Rel (thisType p q node) (thisType p r node) := by
  refine L.bind (L.ofWalk _) fun cls => ?_
  split
  · split
    · exact L.bind (h.typesOf _) fun _ => L.pure _
    · exact L.pure _
  · exact L.pure _

end Literals

/-! ## Operators and access -/

section Access

variable (p : Tree)

include h

omit p in
theorem operatorMethod_rel (t : Ty) (symbol : String) (arity : Nat) :
    L.Rel (operatorMethod q t symbol arity) (operatorMethod r t symbol arity) := by
  refine L.bind (h.resolveDeep t) fun target => ?_
  split
  · exact L.pure _
  · exact L.pure none

omit p in
theorem binaryType_rel (op : BinaryOp) (lhs rhs : NodeId) :
    L.Rel (binaryType q op lhs rhs) (binaryType r op lhs rhs) := by
  refine L.bind (h.typeOf lhs) fun left => L.bind (h.typeOf rhs) fun right => ?_
  split
  · exact L.pure _
  · split
    · exact L.bind (h.resolveDeep left) fun _ => L.bind (h.resolveDeep right) fun _ => L.pure _
    · exact L.bind (h.resolveDeep left) fun _ => L.bind (h.resolveDeep right) fun _ => L.pure _
    · exact h.commonType _
    · exact L.pure _
    · exact L.pure _
    · refine L.bind (operatorMethod_rel h left _ _) fun method => ?_
      split
      · exact L.pure _
      · exact L.bind (h.resolveDeep left) fun _ => L.bind (h.resolveDeep right) fun _ => L.pure _

omit p in
theorem unaryType_rel (op : UnaryOp) (operand : NodeId) :
    L.Rel (unaryType q op operand) (unaryType r op operand) := by
  refine L.bind (h.typeOf operand) fun t => ?_
  split
  · exact L.pure t
  · refine L.bind (operatorMethod_rel h t _ _) fun method => ?_
    split
    · exact L.pure _
    · refine L.bind (h.resolveDeep t) fun resolved => ?_
      split
      · exact L.pure _
      · exact L.pure _

omit p in
theorem memberOfAll_rel (name : String) (types : List Ty) :
    L.Rel (memberOfAll q name types) (memberOfAll r name types) := by
  induction types with
  | nil => exact L.pure _
  | cons t rest ih =>
    refine L.bind (h.member t name) fun found => ?_
    split
    · exact L.pure none
    · exact L.bind ih fun _ => L.pure _

omit p in
theorem memberOfSome_rel (name : String) (types : List Ty) :
    L.Rel (memberOfSome q name types) (memberOfSome r name types) := by
  induction types with
  | nil => exact L.pure none
  | cons t rest ih =>
    refine L.bind (h.member t name) fun found => ?_
    split
    · exact ih
    · exact L.pure _

omit p in
theorem instanceMember_rel (t : Ty) (name : String) :
    L.Rel (instanceMember q t name) (instanceMember r t name) := by
  refine L.bind (h.resolveDeep t) fun resolved => ?_
  split
  case h_6 => exact L.bind (h.interfaceMethods _) fun _ => L.pure _
  case h_7 => exact L.bind (memberOfSome_rel h name _) fun _ => L.pure _
  case h_8 =>
    refine L.bind (memberOfAll_rel h name _) fun found => ?_
    split
    · exact h.commonType _
    · exact L.pure _
  case h_9 =>
    split
    · exact h.member _ name
    · exact L.pure _
  all_goals exact L.pure _

theorem staticConstructor_rel (constructor : NodeId) (generics : List NodeId) :
    L.Rel (staticConstructor p q constructor generics) (staticConstructor p r constructor generics) := by
  refine L.bind (h.typeOf constructor) fun t => ?_
  split
  · dsimp only
    split
    · exact L.pure t
    · exact L.pure _
  · exact L.pure t

theorem declaredMember_rel (decl : NodeId) (d : TypeDeclForm) (name : String) :
    L.Rel (declaredMember p q decl d name) (declaredMember p r decl d name) := by
  unfold declaredMember
  dsimp only
  split
  · split
    · exact L.bind (staticConstructor_rel h p _ _) fun _ => L.pure _
    · exact L.pure _
  · exact L.pure _
  · exact L.pure _
  · split
    · exact L.bind (h.typeOf _) fun _ => L.pure _
    · exact L.pure _
  · exact L.pure none

theorem staticMember_rel (m : MemberForm) : L.Rel (staticMember p q m) (staticMember p r m) := by
  unfold staticMember
  split
  · split
    · exact L.pure none
    · refine L.bind (L.ofWalk _) fun form => ?_
      split
      · exact declaredMember_rel h p _ _ _
      · exact L.pure none
  · exact L.pure none

theorem thisMember_rel (m : MemberForm) : L.Rel (thisMember p q m) (thisMember p r m) := by
  unfold thisMember
  split
  · refine L.bind (L.ofWalk _) fun cls => ?_
    split
    · exact L.pure none
    · exact h.typeOf? _
  · exact L.pure none

omit h in
theorem accessIsOptional_rel (base : NodeId) (isOptional : Bool) :
    L.Rel (accessIsOptional p base isOptional) (accessIsOptional p base isOptional) := by
  unfold accessIsOptional
  split
  · exact L.pure true
  · exact L.ofWalk _

theorem valueMember_rel (m : MemberForm) : L.Rel (valueMember p q m) (valueMember p r m) := by
  refine L.bind (h.typeOf m.base) fun base => ?_
  split
  · exact L.pure base
  · refine L.bind (h.resolveDeep base) fun target => ?_
    split
    · refine L.bind (accessIsOptional_rel p m.base m.optional) fun isOptional => ?_
      split
      · exact L.bind (h.member _ _) fun _ => L.pure _
      · exact L.pure _
    · exact h.member target m.name

theorem memberType_rel (m : MemberForm) : L.Rel (memberType p q m) (memberType p r m) := by
  refine L.bind (staticMember_rel h p m) fun found => ?_
  split
  · exact L.pure _
  · refine L.bind (thisMember_rel h p m) fun found => ?_
    split
    · exact L.pure _
    · exact valueMember_rel h p m

theorem elementType_rel (base target : Ty) (index : NodeId) (position : Ty) :
    L.Rel (elementType p q base target index position) (elementType p r base target index position) := by
  unfold elementType
  split
  · exact L.bind (h.resolveDeep position) fun _ => L.pure _
  · exact L.pure _
  · exact L.pure _
  · exact L.pure _
  · refine L.bind (operatorMethod_rel h target _ _) fun method => ?_
    split
    · exact L.pure _
    · exact L.pure _
  · exact L.pure _

theorem indexType_rel (i : IndexForm) : L.Rel (indexType p q i) (indexType p r i) := by
  refine L.bind (h.typeOf i.base) fun base => ?_
  split
  · exact L.pure base
  · refine L.bind (h.typeOf i.index) fun position => ?_
    split
    · exact L.pure position
    · refine L.bind (h.resolveDeep base) fun target => ?_
      split
      · refine L.bind (accessIsOptional_rel p i.base i.optional) fun isOptional => ?_
        split
        · refine L.bind (h.resolveDeep _) fun target => ?_
          exact L.bind (elementType_rel h p base target i.index position) fun _ => L.pure _
        · exact L.pure _
      · exact elementType_rel h p base target i.index position

end Access

/-! ## Application -/

section Application

variable (p : Tree)

theorem variantGenerics_rel (decl : Option NodeId) :
    L.Rel (variantGenerics p decl) (variantGenerics p decl) := by
  unfold variantGenerics
  split
  · exact L.pure []
  · refine L.bind (L.ofWalk _) fun form => ?_
    split
    · exact L.pure _
    · exact L.pure []

theorem construct_rel (c : Constructed Ty) (args : List Ty) :
    L.Rel (construct p c args) (construct p c args) := by
  unfold construct
  split
  · exact L.pure _
  · refine L.bind (variantGenerics_rel p c.decl) fun names => ?_
    split
    · exact L.pure _
    · exact L.pure _

theorem namedClass?_rel (t : Ty) : L.Rel (namedClass? p t) (namedClass? p t) := by
  unfold namedClass?
  split
  · exact L.pure none
  · refine L.bind (L.ofWalk _) fun form => ?_
    split
    · split
      · exact L.pure _
      · exact L.pure none
    · exact L.pure none

include h

theorem logCall_rel (effects : L.Effects) (calleeType : Ty) (callee : NodeId) (bindings : Bindings) :
    L.Rel (logCall p q calleeType callee bindings) (logCall p r calleeType callee bindings) := by
  refine L.bind effects.settings fun settings => ?_
  split
  · exact L.pure ()
  · split
    · exact L.pure ()
    · refine L.bind (L.ofWalk _) fun form => ?_
      split
      · exact Lockstep.discard (effects.logFunction _ _ _)
      · split
        · refine L.bind (h.typeOf _) fun owner => ?_
          split
          · refine L.bind (effects.logClass _ _ _) fun classKey => ?_
            exact Lockstep.discard (effects.logMethod _ _ _ _)
          · exact L.pure ()
        · exact L.pure ()
      · exact L.pure ()

omit p in
theorem callBindings_rel (calleeType : Ty) (s : Signature Ty) (c : CallForm) (args : List Ty) :
    L.Rel (callBindings q calleeType s c args) (callBindings r calleeType s c args) := by
  unfold callBindings
  dsimp only
  split
  · split
    · exact L.pure _
    · exact L.bind (h.typesOf _) fun _ => L.pure _
  · split
    · exact L.pure _
    · exact L.pure _

theorem callFunction_rel (effects : L.Effects) (calleeType : Ty) (s : Signature Ty) (c : CallForm)
    (args : List Ty) :
    L.Rel (callFunction p q calleeType s c args) (callFunction p r calleeType s c args) := by
  refine L.bind (callBindings_rel h calleeType s c args) fun found => ?_
  cases found with
  | error problem => exact L.pure _
  | ok bindings => exact L.bind (logCall_rel h p effects _ _ _) fun _ => L.pure _

theorem callType_rel (effects : L.Effects) (c : CallForm) : L.Rel (callType p q c) (callType p r c) := by
  refine L.bind (h.typeOf c.callee) fun calleeType => ?_
  split
  · exact L.pure calleeType
  · refine L.bind (h.resolveDeep calleeType) fun direct => ?_
    -- an optional call is resolved once more without its null
    refine Lockstep.iteBind (fun _ => L.ofWalk _) (fun _ => L.pure false) fun isOptional => ?_
    refine Lockstep.iteBind (fun _ => h.resolveDeep _) (fun _ => L.pure direct) fun callee => ?_
    refine L.bind (h.typesOf c.args) fun args => ?_
    dsimp only
    split
    · exact L.bind (callFunction_rel h p effects _ _ _ _) fun _ => L.pure _
    · exact L.bind (L.pure _) fun _ => L.pure _
    · exact L.bind (construct_rel p _ _) fun _ => L.pure _
    · exact L.bind (L.pure _) fun _ => L.pure _
    · exact L.bind (L.pure _) fun _ => L.pure _

theorem initParams_rel (cls : NodeId) : L.Rel (initParams p q cls) (initParams p r cls) := by
  unfold initParams
  split
  · exact L.bind (h.signatureOf _) fun _ => L.pure _
  · exact L.pure []

theorem newType_rel (effects : L.Effects) (cls : NodeId) (args : List NodeId) :
    L.Rel (newType p q cls args) (newType p r cls args) := by
  refine L.bind (h.typeOf cls) fun named => ?_
  split
  · exact L.pure named
  · refine L.bind (namedClass?_rel p named) fun found => ?_
    split
    · exact L.pure _
    · -- the instantiation is logged whether its arguments are written or solved
      have hlog (r : Reference Ty) (d : TypeDeclForm) (classArgs : List Ty) : L.Rel
          (do
            if (← Infer.settings).logInstantiations then
              discard (Infer.logClass r.decl d.name classArgs)
            return Ty.reference r.decl d.name classArgs)
          (do
            if (← Infer.settings).logInstantiations then
              discard (Infer.logClass r.decl d.name classArgs)
            return Ty.reference r.decl d.name classArgs) := by
        refine L.bind effects.settings fun settings => ?_
        dsimp only
        split
        · exact L.bind (Lockstep.discard (effects.logClass _ _ _)) fun _ => L.pure _
        · exact L.pure _
      dsimp only
      split
      · refine L.bind (initParams_rel h p _) fun params => L.bind (h.typesOf args) fun args => ?_
        exact L.bind (L.pure _) (hlog _ _)
      · exact L.bind (L.pure _) (hlog _ _)

end Application

/-! ## Signatures and types as written -/

section Declarations

variable (p : Tree)

include h

theorem generics_rel (nodes : List NodeId) : L.Rel (generics p q nodes) (generics p r nodes) := by
  refine Lockstep.filterMapM (fun node => ?_) nodes
  split
  · exact L.bind (h.typeOf? _) fun _ => L.pure _
  · exact L.pure none

theorem params_rel (nodes : List NodeId) : L.Rel (params p q nodes) (params p r nodes) := by
  refine Lockstep.filterMapM (fun node => ?_) nodes
  split
  · exact L.bind (h.typeOf node) fun _ => L.pure _
  · exact L.pure none

theorem bodyType_rel (kind : FnKind) (body : NodeId) :
    L.Rel (bodyType p q kind body) (bodyType p r kind body) := by
  have hvalues : L.Rel (bodyValues p kind body) (bodyValues p kind body) :=
    L.bind (L.ofWalk _) fun _ => L.pure _
  -- a block, or a coroutine of any form, has the common type of the values that leave it
  have hblock : L.Rel
      (do
        let values ← bodyValues p kind body
        if values.isEmpty then return .void
        return settle (← q.commonType (← values.mapM q.typeOrVoid)))
      (do
        let values ← bodyValues p kind body
        if values.isEmpty then return .void
        return settle (← r.commonType (← values.mapM r.typeOrVoid))) := by
    refine L.bind hvalues fun values => ?_
    split
    · exact L.pure _
    · refine L.bind (Lockstep.mapM h.typeOrVoid values) fun types => ?_
      exact L.bind (h.commonType types) fun _ => L.pure _
  refine L.bind (L.ofWalk _) fun form => ?_
  split
  · exact L.bind (h.typeOf body) fun _ => L.pure _
  · exact hblock

theorem resultType_rel (result body : Option NodeId) (kind : FnKind) :
    L.Rel (resultType p q result body kind) (resultType p r result body kind) := by
  unfold resultType
  split
  · exact h.typeOf _
  · exact bodyType_rel h p kind _
  · exact L.pure _

theorem functionType_rel (genericNodes paramNodes : List NodeId) (result body : Option NodeId)
    (kind : FnKind) :
    L.Rel (functionType p q genericNodes paramNodes result body kind)
      (functionType p r genericNodes paramNodes result body kind) := by
  refine L.bind (generics_rel h p genericNodes) fun _ => L.bind (params_rel h p paramNodes) fun _ => ?_
  exact L.bind (resultType_rel h p result body kind) fun _ => L.pure _

theorem paramType_rel (node : NodeId) (f : ParamForm) :
    L.Rel (paramType p q node f) (paramType p r node f) := by
  unfold paramType
  dsimp only
  split
  · exact h.typeOf _
  · split
    · exact L.pure _
    · split
      · refine L.bind (h.expected _) fun t => ?_
        split
        · exact L.pure _
        · exact L.bind (h.resolveDeep _) fun _ => L.pure _
      · exact L.pure _

omit p in
theorem variableType_rel (v : VariableForm) : L.Rel (variableType q v) (variableType r v) := by
  unfold variableType
  split
  · exact h.typeOf _
  · exact L.pure _
  · exact L.bind (h.typeOf _) fun _ => L.pure _

theorem fields_rel (nodes : List NodeId) : L.Rel (fields p q nodes) (fields p r nodes) := by
  refine Lockstep.filterMapM (fun node => ?_) nodes
  split
  · exact L.bind (h.typeOf node) fun _ => L.pure _
  · exact L.pure none

theorem attributes_rel (nodes : List NodeId) : L.Rel (attributes p q nodes) (attributes p r nodes) := by
  refine Lockstep.filterMapM (fun node => ?_) nodes
  split
  · exact L.bind (h.typeOf node) fun _ => L.pure _
  · exact L.pure none

theorem classMethods_rel (nodes : List NodeId) :
    L.Rel (classMethods p q nodes) (classMethods p r nodes) := by
  refine Lockstep.filterMapM (fun node => ?_) nodes
  split
  · split
    · exact L.bind (h.signatureOf node) fun _ => L.pure _
    · exact L.pure none
  · exact L.pure none

theorem interfaceMethods_rel (nodes : List NodeId) :
    L.Rel (interfaceMethods p q nodes) (interfaceMethods p r nodes) := by
  refine Lockstep.filterMapM (fun node => ?_) nodes
  split
  · split
    · exact L.bind (h.signatureOf node) fun _ => L.pure _
    · exact L.pure none
  · exact L.pure none

theorem classType_rel (c : ClassForm) : L.Rel (classType p q c) (classType p r c) := by
  refine L.bind (attributes_rel h p c.attributes) fun _ => L.bind (classMethods_rel h p c.methods) fun _ => ?_
  exact L.bind (h.typesOf c.supers) fun _ => L.bind (h.typesOf c.impls) fun _ => L.pure _

theorem interfaceType_rel (methods supers : List NodeId) :
    L.Rel (interfaceType p q methods supers) (interfaceType p r methods supers) :=
  L.bind (interfaceMethods_rel h p methods) fun _ => L.bind (h.typesOf supers) fun _ => L.pure _

theorem variantType_rel (constructors : List NodeId) :
    L.Rel (variantType p q constructors) (variantType p r constructors) := by
  refine L.bind (Lockstep.filterMapM (fun node => ?_) constructors) fun _ => L.pure _
  split
  · exact L.bind (fields_rel h p _) fun _ => L.pure _
  · exact L.pure none

omit p in
theorem coroutineType_rel (function : NodeId) :
    L.Rel (coroutineType q function) (coroutineType r function) := by
  refine L.bind (h.typeOf function) fun t => ?_
  split
  · exact L.pure _
  · exact L.pure t
  · exact L.pure _

theorem constructorType_rel (node : NodeId) (name : String) (params : List NodeId) :
    L.Rel (constructorType p q node name params) (constructorType p r node name params) := by
  unfold constructorType
  split
  · exact L.pure _
  · exact L.bind (h.typeOf _) fun _ => L.bind (fields_rel h p params) fun _ => L.pure _

theorem enumCaseType_rel (node : NodeId) : L.Rel (enumCaseType p q node) (enumCaseType p r node) := by
  unfold enumCaseType
  split
  · exact h.typeOf _
  · exact L.pure _

end Declarations

/-! ## All rules -/

section Rules

variable (p : Tree)

include h

omit p in
theorem castType_rel (expr target : NodeId) (kind : CastKind) :
    L.Rel (castType q expr target kind) (castType r expr target kind) := by
  refine L.bind (h.typeOf expr) fun source => ?_
  split
  · exact L.pure source
  · exact L.bind (h.typeOf target) fun _ => L.pure _

omit p in
theorem coroutineOf_rel (function : NodeId) : L.Rel (coroutineOf q function) (coroutineOf r function) := by
  refine L.bind (h.typeOf function) fun t => ?_
  split
  · exact L.pure t
  · refine L.bind (h.resolveDeep t) fun target => ?_
    split
    · exact L.pure _
    · exact L.pure _

/-- `ruleFor` every form keeps a lockstep. -/
theorem ruleFor_rel (effects : L.Effects) (node : NodeId) (form : Form) :
    L.Rel (ruleFor p q node form) (ruleFor p r node form) := by
  cases form <;> simp only [ruleFor]
  -- declarations and types as written
  case funDecl => exact functionType_rel h p _ _ _ _ _
  case param => exact paramType_rel h p _ _
  case varDecl => exact variableType_rel h _
  case method => exact functionType_rel h p _ _ _ _ _
  case interfaceMethod => exact functionType_rel h p _ _ _ _ _
  case ctorDecl => exact constructorType_rel h p _ _ _
  case enumCase => exact enumCaseType_rel h p _
  case structType => exact L.bind (fields_rel h p _) fun _ => L.pure _
  case classType => exact classType_rel h p _
  case interfaceType => exact interfaceType_rel h p _ _
  case variantType => exact variantType_rel h p _
  case functionType => exact functionType_rel h p _ _ _ _ _
  case coroutineType => exact coroutineType_rel h _
  case reference => exact referenceType_rel h p _ _
  -- expressions
  case int => exact intType_rel h p effects _ _
  case float => exact floatType_rel h effects _ _
  case name => exact nameType_rel h p _
  case this => exact thisType_rel h p _
  case binary => exact binaryType_rel h _ _ _
  case unary => exact unaryType_rel h _ _
  case call => exact callType_rel h p effects _
  case member => exact memberType_rel h p _
  case index => exact indexType_rel h p _
  case conditional => exact L.bind (h.typesOf _) fun _ => h.commonType _
  case matchExpr =>
    split
    · exact L.pure _
    · exact L.bind (h.typesOf _) fun _ => h.commonType _
  case array => exact arrayType_rel h _ _
  case struct => exact structType_rel h p _
  case newExpr => exact newType_rel h p effects _ _
  case lambda => exact functionType_rel h p _ _ _ _ _
  case cast => exact castType_rel h _ _ _
  case coroutine => exact coroutineOf_rel h _
  -- the remaining forms have a fixed type, or are built from the types of other nodes
  case genericParam => exact L.bind (h.typeOf? _) fun _ => L.pure _
  case unionType | joinType | tupleType | tuple => exact L.bind (h.typesOf _) fun _ => L.pure _
  case arrayType | nullableType | denull => exact L.bind (h.typeOf _) fun _ => L.pure _
  case typeDecl | «attribute» | field | matchArm | structField | assignment => exact h.typeOf _
  all_goals exact L.pure _

/-- `expand` keeps a lockstep. -/
theorem expand_rel (effects : L.Effects) (ref : Reference Ty) :
    L.Rel (expand p q ref) (expand p r ref) := by
  refine L.bind (L.ofWalk _) fun form => ?_
  split
  · -- a declared type: its definition, with the arguments in place of the generic parameters
    refine L.bind (h.typeOf ref.decl) fun definition => ?_
    dsimp only
    split
    · exact L.pure definition
    · split
      · exact L.pure _
      · refine L.bind effects.countResolution fun _ => ?_
        -- a class is logged, and an alias is followed
        split
        · refine L.bind effects.settings fun settings => ?_
          split
          · exact L.bind (Lockstep.discard (effects.logClass _ _ _)) fun _ => L.pure _
          · exact L.pure _
        · exact h.resolve _
        · exact L.pure _
  · exact h.typeOf ref.decl
  · exact L.pure _

end Rules

end Typing

/-! ## Levels of answers -/

/-- The answers one level above given ones, with the two questions that have a memo answered separately. The
given answers are a function, so that a level is built only when it is asked. -/
def Queries.above (p : Tree) (typeOf : NodeId → Infer Ty) (resolve : Resolver Checker) (q : Unit → Queries) :
    Queries where
  typeOf := typeOf
  resolve := resolve
  expected node := Typing.expected p (q ()) node
  common types := Typing.common (q ()) types
  member t name := Typing.instanceMember (q ()) t name
  compare assumed actual expected := (q ()).comparer.step assumed actual expected

theorem answers_succ (p : Tree) (depth references : Nat) :
    answers p (depth + 1) references =
      .above p (Typing.typeOf p (answers p depth references))
        (Typing.resolve p (answers p depth (references + 1)) references) fun _ => answers p depth references :=
  rfl

/-- `above` is in lockstep when the answers below it and its two memoised questions are. -/
theorem Queries.above_inStep {p : Tree} {q r : Unit → Queries} (h : (q ()).InStep L (r ()))
    {typeOf typeOf' : NodeId → Infer Ty} (htypeOf : ∀ node, L.Rel (typeOf node) (typeOf' node))
    {resolve resolve' : Resolver Checker} (hresolve : Resolver.InStep L resolve resolve') :
    (above p typeOf resolve q).InStep L (above p typeOf' resolve' r) where
  typeOf := htypeOf
  resolve := hresolve
  expected := Typing.expected_rel h p
  common := Typing.common_rel h
  member := Typing.instanceMember_rel h
  compare := h.comparer.step

/-- `exhausted` is in step with any queries if the lockstep asks nothing of refused questions. -/
theorem Queries.inStep_exhausted (hL : ∀ {α : Type} (x : Infer α), L.Rel x Search.exhausted) (q : Queries) :
    q.InStep L exhausted :=
  ⟨fun _ => hL _, fun _ => hL _, fun _ => hL _, fun _ => hL _, fun _ _ => hL _, fun _ _ _ => hL _⟩

theorem Queries.InStep.mono {L' : Lockstep Checker Checker}
    (hL : ∀ {α : Type} {x y : Infer α}, L.Rel x y → L'.Rel x y) {q r : Queries} (h : q.InStep L r) :
    q.InStep L' r :=
  ⟨fun _ => hL (h.typeOf _), fun _ => hL (h.resolve _), fun _ => hL (h.expected _), fun _ => hL (h.common _),
    fun _ _ => hL (h.member _ _), fun _ _ _ => hL (h.compare _ _ _)⟩

end Ascribe
