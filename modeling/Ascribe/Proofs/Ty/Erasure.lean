import Ascribe.Ty.Same
import Ascribe.Ty.Text

/-!
# Erased types

Two types are the same exactly when they are equal once every back-reference is erased
(`Ty.same_iff_erase_eq`). So sameness is an equivalence, and a fact about types that only depends
on erased types holds of any two types that are the same.

## Key results

- `Ty.same_iff_erase_eq`: sameness is equality of erased types
- `Ty.erase_erase`: erasing twice is erasing once
- `Ty.text_erase`: the text of a type does not show back-references
- `Ty.erase_shape`: the shape of an erased type, by cases on the shape
-/

namespace Ascribe

variable {α β γ : Type}

/-! ## Agreement is equality of images -/

/-- `agreeEach eq` holds of lists with equal images under `g`, if `eq` holds of elements with equal images. -/
private theorem agreeEach_iff_map_eq {eq : α → α → Bool} {g : α → β} {as bs : List α}
    (h : ∀ a ∈ as, ∀ b, eq a b = true ↔ g a = g b) (hlen : as.length = bs.length) :
    agreeEach eq as bs = true ↔ as.map g = bs.map g := by
  induction as generalizing bs with
  | nil =>
    have : bs = [] := List.eq_nil_of_length_eq_zero hlen.symm
    subst this
    simp [agreeEach]
  | cons a as ih =>
    cases bs with
    | nil => simp at hlen
    | cons b bs =>
      simp only [List.forall_mem_cons] at h
      simp only [List.length_cons, Nat.add_right_cancel_iff] at hlen
      simp only [agreeEach, Bool.and_eq_true, List.map_cons, List.cons.injEq]
      rw [h.1 b, ih h.2 hlen]

/-- The form of `agreeEach_iff_map_eq` for lists of any length. -/
theorem agreeAll_iff_map_eq {eq : α → α → Bool} {g : α → β} {as : List α} (bs : List α)
    (h : ∀ a ∈ as, ∀ b, eq a b = true ↔ g a = g b) :
    agreeAll eq as bs = true ↔ as.map g = bs.map g := by
  simp only [agreeAll, Bool.and_eq_true, beq_iff_eq]
  constructor
  · rintro ⟨hlen, heach⟩
    exact (agreeEach_iff_map_eq h hlen).mp heach
  · intro hmap
    have hlen : as.length = bs.length := by simpa using congrArg List.length hmap
    exact ⟨hlen, (agreeEach_iff_map_eq h hlen).mpr hmap⟩

theorem agreeOption_iff_map_eq {eq : α → α → Bool} {g : α → β} {a : Option α} (b : Option α)
    (h : ∀ x ∈ a, ∀ y, eq x y = true ↔ g x = g y) :
    agreeOption eq a b = true ↔ a.map g = b.map g := by
  cases a with
  | none => cases b <;> simp [agreeOption]
  | some x =>
    cases b with
    | none => simp [agreeOption]
    | some y => simpa [agreeOption] using h x rfl y

namespace Shape

/-- A layer whose parts are mapped and whose back-references are dropped. -/
def erasedWith (g : α → β) (s : Shape α) : Shape β :=
  (s.map g).forgetOrigins

section Agree

variable {eq : α → α → Bool} {g : α → β}

private theorem agreeFields_iff {as : List (Field α)} (bs : List (Field α))
    (h : ∀ x ∈ as.map (·.type), ∀ y, eq x y = true ↔ g x = g y) :
    agreeAll (agreeField eq) as bs = true ↔
      (mapFields g as).map ({ · with origin := none }) =
        (mapFields g bs).map ({ · with origin := none }) := by
  simp only [mapFields, List.map_map]
  refine agreeAll_iff_map_eq _ fun a ha b => ?_
  have := h a.type (List.mem_map.mpr ⟨a, ha, rfl⟩) b.type
  simp [agreeField, this]

private theorem agreeSignature_iff {a : Signature α} (b : Signature α)
    (h : ∀ x ∈ a.parts, ∀ y, eq x y = true ↔ g x = g y) :
    agreeSignature eq a b = true ↔ (a.mapUnder fun _ => g) = (b.mapUnder fun _ => g) := by
  simp only [Signature.parts, Signature.paramTypes, List.mem_append, List.mem_cons,
    List.mem_filterMap, List.mem_map] at h
  have hparams : agreeAll (agreeParam eq) a.params b.params = true ↔
      a.params.map (fun p => { p with type := g p.type }) =
        b.params.map (fun p => { p with type := g p.type }) := by
    refine agreeAll_iff_map_eq _ fun p hp q => ?_
    have := h p.type (.inl ⟨p, hp, rfl⟩) q.type
    simp [agreeParam, this, and_assoc]
  have hgenerics : agreeAll (agreeGeneric eq) a.generics b.generics = true ↔
      a.generics.map (fun x => { x with constraint := x.constraint.map g }) =
        b.generics.map (fun x => { x with constraint := x.constraint.map g }) := by
    refine agreeAll_iff_map_eq _ fun x hx y => ?_
    have := agreeOption_iff_map_eq y.constraint fun c hc => h c (.inr (.inr ⟨x, hx, hc⟩))
    simp [agreeGeneric, this]
  simp only [agreeSignature, Bool.and_eq_true, hparams, hgenerics, h a.result (.inr (.inl rfl)),
    beq_iff_eq, Signature.mapUnder, Signature.mk.injEq, and_assoc]

private theorem agreeMethods_iff {as : List (Method α)} (bs : List (Method α))
    (h : ∀ x ∈ as.flatMap (·.signature.parts), ∀ y, eq x y = true ↔ g x = g y) :
    agreeAll (agreeMethod eq) as bs = true ↔
      (mapMethods (fun _ => g) as).map ({ · with origin := none }) =
        (mapMethods (fun _ => g) bs).map ({ · with origin := none }) := by
  simp only [mapMethods, List.map_map]
  refine agreeAll_iff_map_eq _ fun a ha b => ?_
  have := agreeSignature_iff b.signature
    fun x hx => h x (List.mem_flatMap.mpr ⟨a, ha, hx⟩)
  simp [agreeMethod, this, and_assoc]

private theorem agreeAttributes_iff {as : List (Attribute α)} (bs : List (Attribute α))
    (h : ∀ x ∈ as.map (·.type), ∀ y, eq x y = true ↔ g x = g y) :
    agreeAll (agreeAttribute eq) as bs = true ↔
      (as.map fun a => { a with type := g a.type }).map ({ · with origin := none }) =
        (bs.map fun a => { a with type := g a.type }).map ({ · with origin := none }) := by
  simp only [List.map_map]
  refine agreeAll_iff_map_eq _ fun a ha b => ?_
  have := h a.type (List.mem_map.mpr ⟨a, ha, rfl⟩) b.type
  simp [agreeAttribute, this, and_assoc]

private theorem agreeCases_iff {as : List (VariantCase α)} (bs : List (VariantCase α))
    (h : ∀ x ∈ as.flatMap (fun c => c.params.map (·.type)), ∀ y, eq x y = true ↔ g x = g y) :
    agreeAll (agreeCase eq) as bs = true ↔
      ((as.map fun c => { c with params := mapFields g c.params }).map fun c =>
          ({ c with params := c.params.map ({ · with origin := none }), origin := none } :
            VariantCase β)) =
        (bs.map fun c => { c with params := mapFields g c.params }).map fun c =>
          { c with params := c.params.map ({ · with origin := none }), origin := none } := by
  simp only [List.map_map]
  refine agreeAll_iff_map_eq _ fun a ha b => ?_
  have := agreeFields_iff b.params
    fun x hx => h x (List.mem_flatMap.mpr ⟨a, ha, hx⟩)
  simp [agreeCase, this]

private theorem agreeEnumCases_iff (as bs : List EnumCase) :
    agreeAll agreeEnumCase as bs = true ↔
      as.map (fun c => { c with origin := none }) = bs.map fun c => { c with origin := none } :=
  agreeAll_iff_map_eq _ fun a _ b => by simp [agreeEnumCase]

private theorem agreeBuiltIns_iff {as : List (BuiltIn α)} (bs : List (BuiltIn α))
    (h : ∀ x ∈ as.map (·.type), ∀ y, eq x y = true ↔ g x = g y) :
    agreeAll (agreeBuiltIn eq) as bs = true ↔
      as.map (fun m => { m with type := g m.type }) = bs.map fun m => { m with type := g m.type } := by
  refine agreeAll_iff_map_eq _ fun a ha b => ?_
  have := h a.type (List.mem_map.mpr ⟨a, ha, rfl⟩) b.type
  simp [agreeBuiltIn, this]

/-- `agree eq` holds of layers that `erasedWith g` makes equal, if `eq` holds of parts with equal images under `g`. -/
theorem agree_iff_erasedWith_eq {s t : Shape α}
    (h : ∀ x ∈ s.parts, ∀ y, eq x y = true ↔ g x = g y) :
    s.agree eq t = true ↔ s.erasedWith g = t.erasedWith g := by
  simp only [erasedWith, map]
  -- layers of different kinds neither agree nor become equal
  cases s <;> cases t <;>
    try (refine iff_of_false ?_ ?_ <;> intro hkind <;> cases hkind)
  case prim.prim => simp [agree, mapUnder, forgetOrigins]
  case stringEnum.stringEnum => simp [agree, mapUnder, forgetOrigins]
  case array.array x y => simpa [agree, mapUnder, forgetOrigins] using h x (by simp [parts]) y
  case nullable.nullable x y => simpa [agree, mapUnder, forgetOrigins] using h x (by simp [parts]) y
  case union.union as bs =>
    simp only [agree, mapUnder, forgetOrigins, Shape.union.injEq]
    exact agreeAll_iff_map_eq bs h
  case join.join as bs =>
    simp only [agree, mapUnder, forgetOrigins, Shape.join.injEq]
    exact agreeAll_iff_map_eq bs h
  case tuple.tuple as bs =>
    simp only [agree, mapUnder, forgetOrigins, Shape.tuple.injEq]
    exact agreeAll_iff_map_eq bs h
  case struct.struct a b =>
    simp [agree, mapUnder, forgetOrigins, agreeFields_iff b.fields h]
  case cls.cls a b =>
    simp only [parts, List.mem_append, or_imp, forall_and] at h
    obtain ⟨⟨⟨hattributes, hmethods⟩, hsupers⟩, himpls⟩ := h
    simp only [agree, mapUnder, forgetOrigins, Bool.and_eq_true, agreeAttributes_iff _ hattributes,
      agreeMethods_iff _ hmethods, agreeAll_iff_map_eq _ hsupers, agreeAll_iff_map_eq _ himpls,
      and_assoc, Shape.cls.injEq, ClassBody.mk.injEq]
  case interface.interface a b =>
    simp only [parts, List.mem_append, or_imp, forall_and] at h
    simp only [agree, mapUnder, forgetOrigins, Bool.and_eq_true, agreeMethods_iff _ h.1,
      agreeAll_iff_map_eq _ h.2, Shape.interface.injEq, InterfaceBody.mk.injEq]
  case variant.variant as bs =>
    simp only [agree, mapUnder, forgetOrigins, Shape.variant.injEq]
    exact agreeCases_iff bs h
  case constructed.constructed a b =>
    simp only [parts, List.cons_append, List.mem_cons, List.mem_append, or_imp, forall_and,
      forall_eq] at h
    simp only [agree, mapUnder, forgetOrigins, Bool.and_eq_true, h.1, agreeAll_iff_map_eq _ h.2.1,
      agreeFields_iff _ h.2.2, beq_iff_eq, and_assoc, Shape.constructed.injEq, Constructed.mk.injEq]
  case enum.enum a b =>
    simp [agree, mapUnder, forgetOrigins, agreeEnumCases_iff]
  case fn.fn a b =>
    simp only [agree, mapUnder, forgetOrigins, Shape.fn.injEq]
    exact agreeSignature_iff b h
  case coroutine.coroutine a b =>
    simp only [agree, mapUnder, forgetOrigins, Shape.coroutine.injEq]
    exact agreeSignature_iff b h
  case generic.generic a b =>
    have := agreeOption_iff_map_eq b.constraint fun x hx => h x (Option.mem_toList.mpr hx)
    simp [agree, agreeGeneric, mapUnder, forgetOrigins, this]
  case ref.ref a b =>
    simp only [parts] at h
    simp only [agree, mapUnder, forgetOrigins, Bool.and_eq_true, agreeAll_iff_map_eq _ h, beq_iff_eq,
      and_assoc, Shape.ref.injEq, Reference.mk.injEq]
  case prototype.prototype a b =>
    simp [agree, mapUnder, forgetOrigins, agreeBuiltIns_iff b.members h]
  case error.error a b =>
    have := agreeOption_iff_map_eq b.expected fun x hx => h x (Option.mem_toList.mpr hx)
    simp [agree, mapUnder, forgetOrigins, this]

end Agree

/-- `forgetOrigins` and `mapUnder` can be done in either order. -/
theorem mapUnder_forgetOrigins (f : List String → α → β) (s : Shape α) :
    s.forgetOrigins.mapUnder f = (s.mapUnder f).forgetOrigins := by
  cases s <;>
    simp [forgetOrigins, mapUnder, mapFields, mapMethods, Function.comp_def]

theorem forgetOrigins_forgetOrigins (s : Shape α) : s.forgetOrigins.forgetOrigins = s.forgetOrigins := by
  cases s <;> simp [forgetOrigins, Function.comp_def]

theorem erasedWith_map (f : β → γ) (g : α → β) (s : Shape α) :
    (s.erasedWith g).map f = s.erasedWith fun x => f (g x) := by
  rw [erasedWith, map, mapUnder_forgetOrigins, ← map, map_map]
  rfl

/-- `Shape.map` only depends on the function at `parts`. -/
theorem map_congr {f g : α → β} {s : Shape α} (h : ∀ x ∈ s.parts, f x = g x) : s.map f = s.map g := by
  have signature {s : Signature α} (h : ∀ x ∈ s.parts, f x = g x) :
      (s.mapUnder fun _ => f) = s.mapUnder fun _ => g := by
    simp only [Signature.parts, Signature.paramTypes, List.mem_append, List.mem_cons, List.mem_map,
      List.mem_filterMap] at h
    simp only [Signature.mapUnder, Signature.mk.injEq, and_true]
    refine ⟨List.map_congr_left fun p hp => ?_, h _ (.inr (.inl rfl)), List.map_congr_left fun x hx => ?_⟩
    · rw [h p.type (.inl ⟨p, hp, rfl⟩)]
    · rw [Option.map_congr fun c hc => h c (.inr (.inr ⟨x, hx, hc⟩))]
  have fields {fs : List (Field α)} (h : ∀ x ∈ fs.map (·.type), f x = g x) :
      mapFields f fs = mapFields g fs :=
    List.map_congr_left fun x hx => by rw [h x.type (List.mem_map.mpr ⟨x, hx, rfl⟩)]
  have methods {ms : List (Method α)} (h : ∀ x ∈ ms.flatMap (·.signature.parts), f x = g x) :
      mapMethods (fun _ => f) ms = mapMethods (fun _ => g) ms :=
    List.map_congr_left fun m hm => by rw [signature fun x hx => h x (List.mem_flatMap.mpr ⟨m, hm, hx⟩)]
  cases s with
  | prim | enum | stringEnum => rfl
  | array x | nullable x => simp only [map, mapUnder, h x (List.mem_singleton.mpr rfl)]
  | union xs | join xs | tuple xs =>
    have list : xs.map f = xs.map g := List.map_congr_left h
    simp only [map, mapUnder, list]
  | struct body => simp only [map, mapUnder, fields h]
  | cls body =>
    simp only [parts, List.mem_append, or_imp, forall_and] at h
    have attributes : body.attributes.map (fun a => { a with type := f a.type }) =
        body.attributes.map fun a => { a with type := g a.type } :=
      List.map_congr_left fun a ha => by rw [h.1.1.1 a.type (List.mem_map.mpr ⟨a, ha, rfl⟩)]
    simp only [map, mapUnder, attributes, methods h.1.1.2, List.map_congr_left h.1.2,
      List.map_congr_left h.2]
  | interface body =>
    simp only [parts, List.mem_append, or_imp, forall_and] at h
    simp only [map, mapUnder, methods h.1, List.map_congr_left h.2]
  | variant cases =>
    simp only [map, mapUnder, Shape.variant.injEq]
    exact List.map_congr_left fun c hc => by
      rw [fields fun x hx => h x (List.mem_flatMap.mpr ⟨c, hc, hx⟩)]
  | constructed c =>
    simp only [parts, List.cons_append, List.mem_cons, List.mem_append, or_imp, forall_and,
      forall_eq] at h
    simp only [map, mapUnder, h.1, List.map_congr_left h.2.1, fields h.2.2]
  | fn s | coroutine s => simp only [map, mapUnder, signature h]
  | generic x =>
    simp only [map, mapUnder, Option.map_congr fun c hc => h c (Option.mem_toList.mpr hc)]
  | ref r =>
    have args : r.args.map f = r.args.map g := List.map_congr_left h
    simp only [map, mapUnder, args]
  | prototype body =>
    have members : body.members.map (fun m => { m with type := f m.type }) =
        body.members.map fun m => { m with type := g m.type } :=
      List.map_congr_left fun m hm => by rw [h m.type (List.mem_map.mpr ⟨m, hm, rfl⟩)]
    simp only [map, mapUnder, members]
  | error e =>
    simp only [map, mapUnder, Option.map_congr fun c hc => h c (Option.mem_toList.mpr hc)]

end Shape

/-- `Phrase.ofShape` does not show back-references. -/
theorem Phrase.ofShape_forgetOrigins (s : Shape Phrase.Pending) :
    Phrase.ofShape s.forgetOrigins = Phrase.ofShape s := by
  cases s with
  | variant cases =>
    have case (c : VariantCase Phrase.Pending) :
        Phrase.variantCase { c with
          params := c.params.map fun f => { f with origin := none }, origin := none } =
        Phrase.variantCase c := by
      simp only [Phrase.variantCase, List.isEmpty_map, List.map_map]
      rfl
    simp only [Shape.forgetOrigins, Phrase.ofShape, List.map_map, Function.comp_def, case]
  | struct | cls | interface | enum =>
    simp only [Shape.forgetOrigins, Phrase.ofShape, List.map_map]
    rfl
  | _ => rfl

namespace Ty

/-! ## Erased types -/

theorem erase_eq (t : Ty) : t.erase = of (t.shape.erasedWith erase) :=
  fold_eq _ t

/-- `same` is equality up to `erase`. -/
theorem same_iff_erase_eq (a b : Ty) : same a b = true ↔ a.erase = b.erase := by
  induction a using induction_on_parts generalizing b with
  | step a ih =>
    rw [same_eq, Shape.agree_iff_erasedWith_eq ih, erase_eq a, erase_eq b]
    simp only [of, Ty.mk.injEq, and_true]

@[simp] theorem erase_shape (t : Ty) : t.erase.shape = t.shape.erasedWith erase := by
  rw [erase_eq, of]

/-- `phrase` does not show back-references. -/
@[simp] theorem phrase_erase (t : Ty) : t.erase.phrase = t.phrase := by
  induction t using induction_on_parts with
  | step t ih =>
    rw [phrase_eq, phrase_eq t, erase_shape, Shape.erasedWith_map, Shape.erasedWith,
      Phrase.ofShape_forgetOrigins, Shape.map_congr fun x hx => by rw [ih x hx]]

@[simp] theorem text_erase (t : Ty) : t.erase.text = t.text := by
  rw [text, phrase_erase, text]

@[simp] theorem erase_erase (t : Ty) : t.erase.erase = t.erase := by
  induction t using induction_on_parts with
  | step t ih =>
    rw [erase_eq t.erase, erase_shape, Shape.erasedWith, Shape.erasedWith_map, Shape.erasedWith,
      Shape.forgetOrigins_forgetOrigins, Shape.map_congr ih, ← Shape.erasedWith, ← erase_eq]

@[simp] theorem same_erase_erase (a b : Ty) : a.erase.same b.erase = a.same b := by
  rw [Bool.eq_iff_iff, same_iff_erase_eq, same_iff_erase_eq, erase_erase, erase_erase]

/-! ## Views of erased types -/

@[simp] theorem primitive?_erase (t : Ty) : t.erase.primitive? = t.primitive? := by
  simp only [primitive?, erase_shape]
  cases t.shape <;> rfl

@[simp] theorem problem?_erase (t : Ty) : t.erase.problem? = t.problem? := by
  simp only [problem?, erase_shape]
  cases t.shape <;> rfl

@[simp] theorem reference?_erase (t : Ty) :
    t.erase.reference? = t.reference?.map fun r => { r with args := r.args.map erase } := by
  simp only [reference?, erase_shape]
  cases t.shape <;> rfl

@[simp] theorem isNullable_erase (t : Ty) : t.erase.isNullable = t.isNullable := by
  simp only [isNullable, erase_shape]
  cases t.shape <;> rfl

@[simp] theorem isNever_erase (t : Ty) : t.erase.isNever = t.isNever := by
  simp only [isNever, isPrimitive, primitive?_erase]

@[simp] theorem isAny_erase (t : Ty) : t.erase.isAny = t.isAny := by
  simp only [isAny, isPrimitive, primitive?_erase]

@[simp] theorem isError_erase (t : Ty) : t.erase.isError = t.isError := by
  simp only [isError, problem?_erase]

end Ty

/-- A signature without back-references. -/
def Signature.erase (s : Signature Ty) : Signature Ty :=
  s.mapUnder fun _ => Ty.erase

/-- A method without back-references. -/
def Method.erase (m : Method Ty) : Method Ty :=
  { m with signature := m.signature.erase, origin := none }

@[simp] theorem Method.erase_erase (m : Method Ty) : m.erase.erase = m.erase := by
  simp [Method.erase, Signature.erase, Signature.mapUnder, Function.comp_def]

/-- A field without back-references. -/
def Field.erase (f : Field Ty) : Field Ty :=
  { f with type := f.type.erase, origin := none }

/-- A case of a variant without back-references. -/
def VariantCase.erase (c : VariantCase Ty) : VariantCase Ty :=
  { c with params := c.params.map Field.erase, origin := none }

/-- `field?` and `Field.erase` can be done in either order. -/
theorem StructBody.field?_erase (body : StructBody Ty) (name : String) :
    StructBody.field? { body with fields := body.fields.map Field.erase } name =
      (body.field? name).map Field.erase := by
  simp only [StructBody.field?, List.find?_map]
  rfl

/-- Looking a case up by its name and `VariantCase.erase` can be done in either order. -/
theorem VariantCase.find?_erase (cases : List (VariantCase Ty)) (name : String) :
    (cases.map erase).find? (·.name == name) = (cases.find? (·.name == name)).map erase := by
  simp only [List.find?_map]
  rfl

namespace Shape

theorem erasedWith_struct (body : StructBody Ty) :
    (Shape.struct body).erasedWith Ty.erase =
      .struct { body with fields := body.fields.map Field.erase } := by
  simp only [erasedWith, map, mapUnder, forgetOrigins, mapFields, List.map_map]
  rfl

theorem erasedWith_cls (body : ClassBody Ty) :
    (Shape.cls body).erasedWith Ty.erase =
      .cls {
        attributes := body.attributes.map fun a => { a with type := a.type.erase, origin := none }
        methods := body.methods.map Method.erase
        supers := body.supers.map Ty.erase
        impls := body.impls.map Ty.erase } := by
  simp only [erasedWith, map, mapUnder, forgetOrigins, mapMethods, List.map_map]
  rfl

theorem erasedWith_interface (body : InterfaceBody Ty) :
    (Shape.interface body).erasedWith Ty.erase =
      .interface ⟨body.methods.map Method.erase, body.supers.map Ty.erase⟩ := by
  simp only [erasedWith, map, mapUnder, forgetOrigins, mapMethods, List.map_map]
  rfl

theorem erasedWith_variant (cases : List (VariantCase Ty)) :
    (Shape.variant cases).erasedWith Ty.erase = .variant (cases.map VariantCase.erase) := by
  simp only [erasedWith, map, mapUnder, forgetOrigins, mapFields, List.map_map, Function.comp_def]
  rfl

theorem erasedWith_constructed (c : Constructed Ty) :
    (Shape.constructed c).erasedWith Ty.erase =
      .constructed { c with
        variant := c.variant.erase
        args := c.args.map Ty.erase
        params := c.params.map Field.erase } := by
  simp only [erasedWith, map, mapUnder, forgetOrigins, mapFields, List.map_map]
  rfl

theorem erasedWith_fn (s : Signature Ty) : (Shape.fn s).erasedWith Ty.erase = .fn s.erase :=
  rfl

end Shape

@[simp] theorem Ty.constructed?_erase (t : Ty) :
    t.erase.constructed? = t.constructed?.map fun c =>
      { c with variant := c.variant.erase, args := c.args.map Ty.erase, params := c.params.map Field.erase } := by
  simp only [constructed?, erase_shape]
  cases t.shape with
  | constructed c => rw [Shape.erasedWith_constructed]; rfl
  | _ => rfl

end Ascribe
