import Ascribe.Ty.Size

/-!
# Sameness of types

Two types are the same when they differ at most in back-references, at any depth. `Shape.agree` compares
one layer, given a comparison of the parts; `Ty.same` folds it. `Ty.erase` removes every back-reference.

A type may hold one part many times over, so a comparison that walks both types in full can take time
exponential in what is stored. `Ty.sameWithin` gives the same answer and does not walk a part that is compared
with itself, which is right because a type is the same as itself (`Ty.same_refl`). It is what `==` runs.
-/

namespace Ascribe

variable {α β : Type}

/-- Whether two lists agree at every position that both have. -/
@[specialize] def agreeEach (eq : α → β → Bool) : List α → List β → Bool
  | a :: as, b :: bs => eq a b && agreeEach eq as bs
  | _, _ => true

/-- Whether two lists have equal length and agree at every position. The lengths are compared first. -/
@[specialize] def agreeAll (eq : α → β → Bool) (as : List α) (bs : List β) : Bool :=
  as.length == bs.length && agreeEach eq as bs

/-- Whether two optional values are both absent or agree. -/
@[specialize] def agreeOption (eq : α → β → Bool) : Option α → Option β → Bool
  | none, none => true
  | some a, some b => eq a b
  | _, _ => false

theorem agreeAll_map {γ : Type} (eq : β → γ → Bool) (f : α → β) (as : List α) (bs : List γ) :
    agreeAll eq (as.map f) bs = agreeAll (fun a => eq (f a)) as bs := by
  have each : agreeEach eq (as.map f) bs = agreeEach (fun a => eq (f a)) as bs := by
    induction as generalizing bs with
    | nil => cases bs <;> rfl
    | cons a as ih => cases bs <;> simp [agreeEach, ih]
  simp [agreeAll, each]

theorem agreeOption_map {γ : Type} (eq : β → γ → Bool) (f : α → β) (a : Option α) (b : Option γ) :
    agreeOption eq (a.map f) b = agreeOption (fun a => eq (f a)) a b := by
  cases a <;> cases b <;> rfl

theorem agreeAll_self {eq : α → α → Bool} {as : List α} (h : ∀ a ∈ as, eq a a = true) :
    agreeAll eq as as = true := by
  have each : agreeEach eq as as = true := by
    induction as with
    | nil => rfl
    | cons a as ih =>
      simp only [List.forall_mem_cons] at h
      simp [agreeEach, h.1, ih h.2]
  simp [agreeAll, each]

theorem agreeOption_self {eq : α → α → Bool} {a : Option α} (h : ∀ x ∈ a, eq x x = true) :
    agreeOption eq a a = true := by
  cases a with
  | none => rfl
  | some x => exact h x rfl

namespace Shape

@[specialize] def agreeField (eq : α → β → Bool) (a : Field α) (b : Field β) : Bool :=
  a.name == b.name && eq a.type b.type

@[specialize] def agreeAttribute (eq : α → β → Bool) (a : Attribute α) (b : Attribute β) : Bool :=
  a.name == b.name && eq a.type b.type && a.isStatic == b.isStatic && a.isConst == b.isConst
    && a.isLocal == b.isLocal

@[specialize] def agreeParam (eq : α → β → Bool) (a : Param α) (b : Param β) : Bool :=
  a.name == b.name && eq a.type b.type && a.isMut == b.isMut

@[specialize] def agreeGeneric (eq : α → β → Bool) (a : Generic α) (b : Generic β) : Bool :=
  a.name == b.name && agreeOption eq a.constraint b.constraint

@[specialize] def agreeSignature (eq : α → β → Bool) (a : Signature α) (b : Signature β) : Bool :=
  agreeAll (agreeParam eq) a.params b.params && eq a.result b.result
    && agreeAll (agreeGeneric eq) a.generics b.generics && a.kind == b.kind

@[specialize] def agreeMethod (eq : α → β → Bool) (a : Method α) (b : Method β) : Bool :=
  a.names == b.names && agreeSignature eq a.signature b.signature && a.isStatic == b.isStatic

@[specialize] def agreeCase (eq : α → β → Bool) (a : VariantCase α) (b : VariantCase β) : Bool :=
  a.name == b.name && agreeAll (agreeField eq) a.params b.params

def agreeEnumCase (a b : EnumCase) : Bool :=
  a.name == b.name && a.value == b.value

@[specialize] def agreeBuiltIn (eq : α → β → Bool) (a : BuiltIn α) (b : BuiltIn β) : Bool :=
  a.name == b.name && eq a.type b.type

/-- Whether two layers are built alike, back-references apart, and their parts agree. -/
@[specialize] def agree (eq : α → β → Bool) : Shape α → Shape β → Bool
  | .prim p, .prim q => p == q
  | .array a, .array b => eq a b
  | .nullable a, .nullable b => eq a b
  | .union as, .union bs => agreeAll eq as bs
  | .join as, .join bs => agreeAll eq as bs
  | .tuple as, .tuple bs => agreeAll eq as bs
  | .struct a, .struct b =>
    agreeAll (agreeField eq) a.fields b.fields && a.isAnonymous == b.isAnonymous
  | .cls a, .cls b =>
    agreeAll (agreeAttribute eq) a.attributes b.attributes
      && agreeAll (agreeMethod eq) a.methods b.methods
      && agreeAll eq a.supers b.supers && agreeAll eq a.impls b.impls
  | .interface a, .interface b =>
    agreeAll (agreeMethod eq) a.methods b.methods && agreeAll eq a.supers b.supers
  | .variant as, .variant bs => agreeAll (agreeCase eq) as bs
  | .constructed a, .constructed b =>
    a.decl == b.decl && a.variantName == b.variantName && eq a.variant b.variant
      && a.name == b.name && agreeAll eq a.args b.args
      && agreeAll (agreeField eq) a.params b.params
  | .enum a, .enum b => agreeAll agreeEnumCase a.cases b.cases && a.repr == b.repr
  | .stringEnum as, .stringEnum bs => as == bs
  | .fn a, .fn b => agreeSignature eq a b
  | .coroutine a, .coroutine b => agreeSignature eq a b
  | .generic a, .generic b => agreeGeneric eq a b
  | .ref a, .ref b => a.decl == b.decl && a.name == b.name && agreeAll eq a.args b.args
  | .prototype a, .prototype b =>
    a.target == b.target && agreeAll (agreeBuiltIn eq) a.members b.members
  | .error a, .error b => a.problem == b.problem && agreeOption eq a.expected b.expected
  | _, _ => false

/-- `agree` of a mapped layer is `agree` of the layer under the mapped comparison. -/
theorem agree_map {γ : Type} (eq : β → γ → Bool) (f : α → β) (a : Shape α) (b : Shape γ) :
    (a.map f).agree eq b = a.agree (fun x => eq (f x)) b := by
  have generic : (fun a : Generic α => agreeGeneric eq { a with constraint := a.constraint.map f })
      = agreeGeneric fun x => eq (f x) := by
    funext a b
    simp only [agreeGeneric, agreeOption_map]
  have signature (a : Signature α) (b : Signature γ) :
      agreeSignature eq (a.mapUnder fun _ => f) b = agreeSignature (fun x => eq (f x)) a b := by
    simp only [agreeSignature, Signature.mapUnder, agreeAll_map, generic]
    rfl
  have method : (fun a : Method α => agreeMethod eq { a with signature := a.signature.mapUnder fun _ => f })
      = agreeMethod fun x => eq (f x) := by
    funext a b
    simp only [agreeMethod, signature]
  have fields (as : List (Field α)) (bs : List (Field γ)) :
      agreeAll (agreeField eq) (mapFields f as) bs = agreeAll (agreeField fun x => eq (f x)) as bs :=
    agreeAll_map ..
  have case : (fun a : VariantCase α => agreeCase eq { a with params := mapFields f a.params })
      = agreeCase fun x => eq (f x) := by
    funext a b
    simp only [agreeCase, fields]
  cases a <;> cases b <;> try rfl
  case cls.cls => simp only [map, mapUnder, agree, mapMethods, agreeAll_map, method]; rfl
  case interface.interface => simp only [map, mapUnder, agree, mapMethods, agreeAll_map, method]
  case generic.generic => simp only [map, mapUnder, agree, agreeGeneric, agreeOption_map]
  all_goals
    simp only [map, mapUnder, agree, agreeAll_map, agreeOption_map, fields, signature, case]
  all_goals rfl

/-- `agree` holds of a layer and itself if the comparison does at each of `parts`. -/
theorem agree_self {eq : α → α → Bool} {s : Shape α} (h : ∀ part ∈ s.parts, eq part part = true) :
    s.agree eq s = true := by
  have generics {gs : List (Generic α)} (h : ∀ part ∈ gs.filterMap (·.constraint), eq part part = true) :
      agreeAll (agreeGeneric eq) gs gs = true :=
    agreeAll_self fun g mem => by
      have := agreeOption_self fun x hx => h x (List.mem_filterMap.mpr ⟨g, mem, hx⟩)
      simp [agreeGeneric, this]
  have signature {s : Signature α} (h : ∀ part ∈ s.parts, eq part part = true) :
      agreeSignature eq s s = true := by
    simp only [Signature.parts, Signature.paramTypes, List.mem_append, List.mem_cons, List.mem_map] at h
    have params : agreeAll (agreeParam eq) s.params s.params = true :=
      agreeAll_self fun p mem => by simp [agreeParam, h p.type (.inl ⟨p, mem, rfl⟩)]
    simp [agreeSignature, params, h s.result (.inr (.inl rfl)), generics fun x hx => h x (.inr (.inr hx))]
  have fields {fs : List (Field α)} (h : ∀ part ∈ fs.map (·.type), eq part part = true) :
      agreeAll (agreeField eq) fs fs = true :=
    agreeAll_self fun f mem => by simp [agreeField, h f.type (List.mem_map.mpr ⟨f, mem, rfl⟩)]
  have methods {ms : List (Method α)} (h : ∀ part ∈ ms.flatMap (·.signature.parts), eq part part = true) :
      agreeAll (agreeMethod eq) ms ms = true :=
    agreeAll_self fun m mem => by
      simp [agreeMethod, signature fun x hx => h x (List.mem_flatMap.mpr ⟨m, mem, hx⟩)]
  cases s with
  | prim | stringEnum => exact beq_self_eq_true _
  | array part | nullable part => exact h part (List.mem_singleton.mpr rfl)
  | union types | join types | tuple types => exact agreeAll_self h
  | struct body => simp [agree, fields h]
  | cls body =>
    simp only [parts, List.mem_append, or_imp, forall_and] at h
    have attributes : agreeAll (agreeAttribute eq) body.attributes body.attributes = true :=
      agreeAll_self fun a mem => by
        simp [agreeAttribute, h.1.1.1 a.type (List.mem_map.mpr ⟨a, mem, rfl⟩)]
    simp [agree, attributes, methods h.1.1.2, agreeAll_self h.1.2, agreeAll_self h.2]
  | interface body =>
    simp only [parts, List.mem_append, or_imp, forall_and] at h
    simp [agree, methods h.1, agreeAll_self h.2]
  | variant cases =>
    refine agreeAll_self fun c mem => ?_
    simp [agreeCase, fields fun x hx => h x (List.mem_flatMap.mpr ⟨c, mem, hx⟩)]
  | constructed c =>
    simp only [parts, List.cons_append, List.mem_cons, List.mem_append, or_imp, forall_and,
      forall_eq] at h
    simp [agree, h.1, agreeAll_self h.2.1, fields h.2.2]
  | enum body =>
    have cases : agreeAll agreeEnumCase body.cases body.cases = true :=
      agreeAll_self fun c _ => by simp [agreeEnumCase]
    simp [agree, cases]
  | fn s | coroutine s => exact signature h
  | generic g =>
    simp [agree, agreeGeneric, agreeOption_self fun x hx => h x (Option.mem_toList.mpr hx)]
  | ref r =>
    simp only [parts] at h
    simp [agree, agreeAll_self h]
  | prototype body =>
    have members : agreeAll (agreeBuiltIn eq) body.members body.members = true :=
      agreeAll_self fun m mem => by simp [agreeBuiltIn, h m.type (List.mem_map.mpr ⟨m, mem, rfl⟩)]
    simp [agree, members]
  | error e => simp [agree, agreeOption_self fun x hx => h x (Option.mem_toList.mpr hx)]

/-- A layer without its back-references. -/
def forgetOrigins : Shape α → Shape α
  | .struct body => .struct { body with fields := body.fields.map ({ · with origin := none }) }
  | .cls body => .cls { body with
      attributes := body.attributes.map ({ · with origin := none })
      methods := body.methods.map ({ · with origin := none }) }
  | .interface body => .interface { body with methods := body.methods.map ({ · with origin := none }) }
  | .variant cases => .variant (cases.map fun c =>
      { c with params := c.params.map ({ · with origin := none }), origin := none })
  | .constructed c => .constructed { c with params := c.params.map ({ · with origin := none }) }
  | .enum body => .enum { body with cases := body.cases.map ({ · with origin := none }) }
  | shape => shape

end Shape

namespace Ty

/-- Whether two types differ at most in back-references. -/
def same (a b : Ty) : Bool :=
  a.foldWith (fun _ parts (other : Ty) => parts.agree (fun f t => f t) other.shape) b

theorem same_eq (a b : Ty) : same a b = a.shape.agree same b.shape := by
  rw [same, foldWith_eq, Shape.agree_map]
  rfl

/-- `same` is reflexive. -/
theorem same_refl (t : Ty) : same t t = true := by
  induction t using induction_on_parts with
  | step t ih =>
    rw [same_eq]
    exact Shape.agree_self ih

/-- Whether two types are the same. Down to a given depth, a shape that is stored once is known to agree with
itself and its parts are not compared. -/
def sameWithin : Nat → (a b : Ty) → { answer : Bool // answer = same a b }
  | 0, a, b => ⟨same a b, rfl⟩
  | depth + 1, a, b =>
    have answer_eq : a.shape.agree (fun x y => (sameWithin depth x y).1) b.shape = same a b := by
      rw [same_eq]
      congr
      funext x y
      exact (sameWithin depth x y).2
    ⟨withPtrEq a.shape b.shape (fun _ => a.shape.agree (fun x y => (sameWithin depth x y).1) b.shape)
        fun h => by rw [answer_eq, same_eq, ← h, ← same_eq, same_refl],
      answer_eq⟩

/-- How deep a comparison looks out for parts that are stored once. -/
def sharedDepth : Nat := 1000000000000

instance : BEq Ty := ⟨fun a b => (sameWithin sharedDepth a b).1⟩

@[simp]
theorem beq_eq_same (a b : Ty) : (a == b) = same a b :=
  (sameWithin sharedDepth a b).2

/-- A type without any back-reference, at any depth. -/
def erase (t : Ty) : Ty :=
  t.fold fun _ parts => of parts.forgetOrigins

end Ty

end Ascribe
