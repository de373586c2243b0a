import Ascribe.Proofs.Instantiation.Keys
import Ascribe.Proofs.Instantiation.Registrations
import Ascribe.Proofs.Instantiation.Segments

/-!
# Which keys share a symbol

A symbol is made of the segments of its key: those of the name, and after them those of the arguments, whatever form the
arguments have (`Ty.segments`). Since adjacent separators are merged, an empty segment is seen only at an end
(`Instantiation.visible`). So two keys have the same symbol exactly if they have the same segments, and there are keys
that do.

Segments are a notation without brackets. It can be read back where every name is always used with the same
number of arguments and no underscore stands for anything else (`Ty.readableSegments`).

## Key results

- `Instantiation.splitOn_mergeSeparators`: what merging separators does to segments
- `Instantiation.symbolOf_keyOf_eq_iff`: which instantiations share a symbol
- `Instantiation.keyOf_eq_of_segmentsOf_eq`: where no two of them do
- `Instantiation.Registry.symbolOf_eq_iff`: both, for the classes in a registry
-/

namespace Ascribe

namespace Instantiation

/-! ## Merged separators -/

/-- Segments without the empty ones, but for the last. -/
def dropEmpty : List (List Char) → List (List Char)
  | [] => []
  | [last] => [last]
  | segment :: next :: rest => if segment.isEmpty then dropEmpty (next :: rest) else segment :: dropEmpty (next :: rest)

/-- The segments that can be seen once adjacent separators are merged: an empty one only at an end. -/
def visible : List (List Char) → List (List Char)
  | [] => []
  | first :: rest => first :: dropEmpty rest

theorem dropEmpty_cons {segment : List Char} (h : segment ≠ []) (rest : List (List Char)) :
    dropEmpty (segment :: rest) = segment :: dropEmpty rest := by
  cases rest with
  | nil => rfl
  | cons next rest => simp [dropEmpty, h]

/-- `mergeSeparators` leaves the `visible` segments. -/
theorem splitOn_mergeSeparators (chars : List Char) :
    (mergeSeparators chars).splitOn '$' = visible (chars.splitOn '$') := by
  fun_induction mergeSeparators chars with
  | case1 rest ih =>
    obtain ⟨next, more, hrest⟩ := List.exists_cons_of_ne_nil (List.splitOn_ne_nil '$' rest)
    rw [ih]
    simp [List.splitOn_cons_eq_if_modifyHead, hrest, visible, dropEmpty]
  | case2 c rest hapart ih =>
    obtain ⟨next, more, hrest⟩ := List.exists_cons_of_ne_nil (List.splitOn_ne_nil '$' rest)
    rw [List.splitOn_cons_eq_if_modifyHead, List.splitOn_cons_eq_if_modifyHead, ih]
    split
    · next hc =>
      -- the next segment is not empty, unless it is the last one, since no other separator comes next
      have hnext : dropEmpty (rest.splitOn '$') = visible (rest.splitOn '$') := by
        cases rest with
        | nil => rfl
        | cons d rest =>
          have hd : (d == '$') = false := by
            rw [beq_eq_false_iff_ne]
            rintro rfl
            exact hapart rest (eq_of_beq hc) rfl
          obtain ⟨next, more, hmore⟩ := List.exists_cons_of_ne_nil (List.splitOn_ne_nil '$' rest)
          simp [List.splitOn_cons_eq_if_modifyHead, hd, hmore, dropEmpty_cons, visible]
      rw [visible, hnext]
    · rw [hrest]
      rfl
  | case3 => rfl

/-- Segments none of which is empty are all `visible`. -/
theorem visible_eq_self {segments : List (List Char)} (h : ∀ segment ∈ segments, segment ≠ []) :
    visible segments = segments := by
  have hdrop (rest : List (List Char)) (hrest : ∀ segment ∈ rest, segment ≠ []) : dropEmpty rest = rest := by
    induction rest with
    | nil => rfl
    | cons segment rest ih =>
      rw [List.forall_mem_cons] at hrest
      rw [dropEmpty_cons hrest.1, ih hrest.2]
  cases segments with
  | nil => rfl
  | cons first rest => rw [visible, hdrop rest (List.forall_mem_cons.mp h).2]

/-! ## Symbols of instantiations -/

/-- The segments of an instantiation: those of its name and of its arguments, as far as they can be seen. -/
def segmentsOf (name : String) (args : List Ty) : List (List Char) :=
  visible (cut name ++ (args.map Ty.segments).flatten)

variable {f g : String} {xs ys : List Ty}

theorem cut_keyOf (name : String) (args : List Ty) :
    cut (keyOf name args) = cut name ++ (args.map Ty.segments).flatten := by
  unfold keyOf
  cases args with
  | nil => simp
  | cons arg rest =>
    have hsegments : ((arg :: rest).map Ty.text).map cut = (arg :: rest).map Ty.segments := by
      rw [List.map_map, funext Ty.segments_eq_cut]
      rfl
    rw [List.isEmpty_cons, if_neg (by decide), cut_bracketed, cut_intercalate_comma, hsegments]
    rfl

/-- `symbolOf (keyOf name args)`, split at its separators, is `segmentsOf name args`. -/
theorem splitOn_symbolOf_keyOf (name : String) (args : List Ty) :
    (symbolOf (keyOf name args)).toList.splitOn '$' = segmentsOf name args := by
  rw [symbolOf, String.toList_ofList, splitOn_mergeSeparators, segmentsOf, ← cut_keyOf]
  rfl

/-- `symbolOf` is equal for two instantiations exactly when `segmentsOf` is. -/
theorem symbolOf_keyOf_eq_iff : symbolOf (keyOf f xs) = symbolOf (keyOf g ys) ↔ segmentsOf f xs = segmentsOf g ys := by
  rw [← splitOn_symbolOf_keyOf, ← splitOn_symbolOf_keyOf]
  constructor
  · intro h
    rw [h]
  · intro h
    -- the pieces with the separators between them are the symbol again
    have hjoined := congrArg ['$'].intercalate h
    rw [List.intercalate_splitOn, List.intercalate_splitOn] at hjoined
    exact String.toList_inj.mp hjoined

/-- `cut` leaves a word in one segment. -/
theorem cut_of_isWord {name : String} (h : isWord name = true) : cut name = [name.toList] := by
  have hword := isWordChar_of_mem h
  rw [cut, symbolChars_eq_self fun c hc => .inl (hword c hc)]
  exact List.splitOn_eq_singleton fun hmem => absurd (hword _ hmem) (by decide)

end Instantiation

/-! ## Names with a fixed number of arguments -/

namespace Ty

open Instantiation

/-- Whether one layer of a type is applied: a primitive, or a reference with as many arguments as its name
always has. -/
def isAppliedLayer (arity : String → Nat) (t : Ty) : Bool :=
  match t.shape with
  | .prim _ => true
  | .ref r => r.args.length == arity r.name
  | _ => false

/-- Whether a type is made of primitives and references only, each name with its number of arguments. -/
def isApplied (arity : String → Nat) (t : Ty) : Bool :=
  t.everywhere (isAppliedLayer arity)

variable {arity : String → Nat} {t t' : Ty}

theorem text_eq_of_chars_eq (h : t.chars = t'.chars) : t.text = t'.text :=
  String.toList_inj.mp h

theorem argumentChars_congr {args args' : List Ty} (h : args.map text = args'.map text) :
    argumentChars args = argumentChars args' := by
  have hempty : args.isEmpty = args'.isEmpty := by
    rw [← List.isEmpty_map (f := text), h, List.isEmpty_map]
  rw [argumentChars, argumentChars, hempty, ← toList_intercalate, ← toList_intercalate, h]

/-- `segments` of an applied type start with a word, followed by those of as many types as the word has arguments. -/
theorem exists_segments_eq (ht : t.isSpelled = true) (happlied : t.isApplied arity = true) :
    ∃ name args, isWord name = true ∧ t.segments = name.toList :: (args.map segments).flatten ∧
      t.chars = name.toList ++ argumentChars args ∧ (∀ arg ∈ args, arg ∈ t.shape.parts) ∧
      args.length = if (Primitive.ofName? name).isSome then 0 else arity name := by
  have hlayer := (everywhere_iff.mp happlied).1
  cases hshape : t.shape with
  | prim p =>
    refine ⟨p.name, [], isWord_name p, ?_, ?_, by simp, by simp [ofName?_name]⟩
    · rw [segments, segmented_eq, hshape, List.map_nil, List.flatten_nil, ← cut_of_isWord (isWord_name p)]
      rfl
    · rw [chars_prim hshape]
      exact (List.append_nil _).symm
  | ref r =>
    obtain ⟨hword, hname⟩ := isSpelled_ref ht hshape
    have hlength : r.args.length = arity r.name := by simpa [isAppliedLayer, hshape] using hlayer
    refine ⟨r.name, r.args, hword, ?_, chars_ref hshape, by simp [Shape.parts], by simp [hname, hlength]⟩
    rw [segments, segmented_eq, hshape]
    show cut r.name ++ ((r.args.map segmented).map (·.segments)).flatten = _
    rw [cut_of_isWord hword, List.map_map]
    rfl
  | _ => simp [isAppliedLayer, hshape] at hlayer

/-- No member of `segments` is empty for an applied type. -/
theorem ne_nil_of_mem_segments (ht : t.isSpelled = true) (happlied : t.isApplied arity = true) :
    ∀ segment ∈ t.segments, segment ≠ [] := by
  induction t using induction_on_parts with
  | step t ih =>
    obtain ⟨name, args, hname, hsegments, -, hmem, -⟩ := exists_segments_eq ht happlied
    obtain ⟨c, rest, hchars, -⟩ := exists_toList_eq hname
    rw [hsegments]
    refine List.forall_mem_cons.mpr ⟨by simp [hchars], fun segment hsegment => ?_⟩
    obtain ⟨list, hlist, hsegment⟩ := List.mem_flatten.mp hsegment
    obtain ⟨arg, harg, rfl⟩ := List.mem_map.mp hlist
    exact ih arg (hmem arg harg) (isSpelled_of_mem_parts ht (hmem arg harg))
      ((everywhere_iff.mp happlied).2 arg (hmem arg harg)) segment hsegment

/-- A type that is known, by its text, once its segments are read. -/
def ReadableSegments (arity : String → Nat) (t : Ty) : Prop :=
  ∀ t' : Ty, t'.isSpelled = true → t'.isApplied arity = true → ∀ rest rest',
    t.segments ++ rest = t'.segments ++ rest' → t.text = t'.text ∧ rest = rest'

/-- As many types as are known to come can be read from their `segments` if each of them is `ReadableSegments`. -/
theorem flatten_append_inj {ts ts' : List Ty} (hread : ∀ t ∈ ts, ReadableSegments arity t)
    (hts' : ∀ t ∈ ts', t.isSpelled = true ∧ t.isApplied arity = true) (hlength : ts.length = ts'.length)
    {rest rest' : List (List Char)}
    (h : (ts.map segments).flatten ++ rest = (ts'.map segments).flatten ++ rest') :
    ts.map text = ts'.map text ∧ rest = rest' := by
  induction ts generalizing ts' with
  | nil =>
    obtain rfl : ts' = [] := List.eq_nil_of_length_eq_zero hlength.symm
    exact ⟨rfl, h⟩
  | cons t ts ih =>
    cases ts' with
    | nil => simp at hlength
    | cons t' ts' =>
      simp only [List.forall_mem_cons] at hread hts'
      simp only [List.map_cons, List.flatten_cons, List.append_assoc] at h
      obtain ⟨htext, hrest⟩ := hread.1 t' hts'.1.1 hts'.1.2 _ _ h
      obtain ⟨htexts, hrests⟩ := ih hread.2 hts'.2 (by simpa using hlength) hrest
      exact ⟨by simp [htext, htexts], hrests⟩

/-- Applied types are `ReadableSegments`: every name has a fixed number of arguments. -/
theorem readableSegments (ht : t.isSpelled = true) (happlied : t.isApplied arity = true) :
    ReadableSegments arity t := by
  induction t using induction_on_parts with
  | step t ih =>
    intro t' ht' happlied' rest rest' h
    obtain ⟨name, args, -, hsegments, hchars, hmem, hlength⟩ := exists_segments_eq ht happlied
    obtain ⟨name', args', -, hsegments', hchars', hmem', hlength'⟩ := exists_segments_eq ht' happlied'
    rw [hsegments, hsegments', List.cons_append, List.cons_append] at h
    obtain rfl := String.toList_inj.mp (List.cons.inj h).1
    -- equal words have equally many arguments, so the arguments end together
    obtain ⟨htexts, hrests⟩ := flatten_append_inj
      (fun arg harg => ih arg (hmem arg harg) (isSpelled_of_mem_parts ht (hmem arg harg))
        ((everywhere_iff.mp happlied).2 arg (hmem arg harg)))
      (fun arg harg => ⟨isSpelled_of_mem_parts ht' (hmem' arg harg),
        (everywhere_iff.mp happlied').2 arg (hmem' arg harg)⟩)
      (hlength.trans hlength'.symm) (List.cons.inj h).2
    refine ⟨text_eq_of_chars_eq ?_, hrests⟩
    rw [hchars, hchars', argumentChars_congr htexts]

end Ty

namespace Instantiation

variable {f g : String} {xs ys : List Ty} {arity : String → Nat}

theorem segmentsOf_of_isApplied (hf : isWord f = true)
    (hxs : ∀ t ∈ xs, t.isSpelled = true ∧ t.isApplied arity = true) :
    segmentsOf f xs = f.toList :: (xs.map Ty.segments).flatten := by
  obtain ⟨c, rest, hchars, -⟩ := exists_toList_eq hf
  rw [segmentsOf, cut_of_isWord hf]
  refine visible_eq_self (List.forall_mem_cons.mpr ⟨by simp [hchars], fun segment hsegment => ?_⟩)
  obtain ⟨list, hlist, hsegment⟩ := List.mem_flatten.mp hsegment
  obtain ⟨t, ht, rfl⟩ := List.mem_map.mp hlist
  exact Ty.ne_nil_of_mem_segments (hxs t ht).1 (hxs t ht).2 segment hsegment

/-- Instantiations with equal `segmentsOf` have equal keys, where every name has a fixed number of arguments. -/
theorem keyOf_eq_of_segmentsOf_eq (hf : isWord f = true) (hg : isWord g = true)
    (hxs : ∀ t ∈ xs, t.isSpelled = true ∧ t.isApplied arity = true)
    (hys : ∀ t ∈ ys, t.isSpelled = true ∧ t.isApplied arity = true) (hfs : xs.length = arity f)
    (hgs : ys.length = arity g) (h : segmentsOf f xs = segmentsOf g ys) : keyOf f xs = keyOf g ys := by
  rw [segmentsOf_of_isApplied hf hxs, segmentsOf_of_isApplied hg hys] at h
  obtain ⟨hname, hsegments⟩ := List.cons.inj h
  obtain rfl := String.toList_inj.mp hname
  have happend : (xs.map Ty.segments).flatten ++ [] = (ys.map Ty.segments).flatten ++ [] := by
    rw [hsegments]
  obtain ⟨htexts, -⟩ := Ty.flatten_append_inj (fun t ht => Ty.readableSegments (hxs t ht).1 (hxs t ht).2)
    hys (hfs.trans hgs.symm) happend
  apply String.toList_inj.mp
  rw [toList_keyOf, toList_keyOf, Ty.argumentChars_congr htexts]

/-- Two classes in a registry that was reached by any run of calls have the same symbol (`symbolOf`) exactly when they
have the same segments (`segmentsOf`), whatever their names and their arguments are. No two have, if the names are
words, the arguments are made of primitives and references, and every name is always used with the same number of
arguments. -/
theorem Registry.symbolOf_eq_iff (calls : List Registration) {key key' : String} {entry entry' : Entry}
    (hentry : (ofCalls calls).class? key = some entry) (hentry' : (ofCalls calls).class? key' = some entry') :
    (symbolOf key = symbolOf key' ↔
      segmentsOf entry.name entry.args = segmentsOf entry'.name entry'.args) ∧
    (∀ arity : String → Nat, isWord entry.name = true → isWord entry'.name = true →
      entry.args.length = arity entry.name → entry'.args.length = arity entry'.name →
      (∀ t ∈ entry.args, t.isSpelled = true ∧ t.isApplied arity = true) →
      (∀ t ∈ entry'.args, t.isSpelled = true ∧ t.isApplied arity = true) →
      key ≠ key' → symbolOf key ≠ symbolOf key') := by
  have hkey := ofCalls_filesClasses calls key entry hentry
  have hkey' := ofCalls_filesClasses calls key' entry' hentry'
  have hiff : symbolOf key = symbolOf key' ↔
      segmentsOf entry.name entry.args = segmentsOf entry'.name entry'.args := by
    rw [hkey, hkey', symbolOf_keyOf_eq_iff]
  refine ⟨hiff, fun arity hname hname' hlength hlength' hargs hargs' hne hsymbol => hne ?_⟩
  rw [hkey, hkey']
  exact keyOf_eq_of_segmentsOf_eq hname hname' hargs hargs' hlength hlength' (hiff.mp hsymbol)

/-- Pairs of boxes and items, one way round and the other, and pairs with a union and a join. -/
def pairCalls : List Registration :=
  let box := Ty.reference 1 "Box" [Ty.prim .u8]
  let item := Ty.reference 2 "Item_" []
  [.cls 0 "Pair" [box, item], .method "Pair<Item_>" 4 "swap" [item], .cls 0 "Pair" [item, box],
    .cls 0 "Pair" [.union [.prim .u8, .string], item], .cls 0 "Pair" [.join [.prim .u8, .string], item]]

/-- How many arguments the names of the pairs have. -/
def pairArity (name : String) : Nat :=
  if name = "Pair" then 2 else if name = "Box" then 1 else 0

/-- The symbols of `pairCalls` tell the order of the arguments, but not a union from a join. -/
theorem pairCalls_apart :
    (Registry.ofCalls pairCalls).classes.keys =
      ["Pair<Box<u8>, Item_>", "Pair<Item_, Box<u8>>", "Pair<u8 | string, Item_>", "Pair<u8 & string, Item_>"] ∧
    symbolOf "Pair<Box<u8>, Item_>" ≠ symbolOf "Pair<Item_, Box<u8>>" ∧
    symbolOf "Pair<u8 | string, Item_>" = symbolOf "Pair<u8 & string, Item_>" := by
  refine ⟨by decide, ?_, (Registry.symbolOf_eq_iff pairCalls rfl rfl).1.mpr (by decide)⟩
  exact (Registry.symbolOf_eq_iff pairCalls rfl rfl).2 pairArity (by decide) (by decide) rfl rfl (by decide) (by decide)
    (by decide)

/-- Classes that share their symbols: nested arguments and arguments beside each other, a postfix inside and
outside the brackets, and a postfix and an underscore. -/
def collidingCalls : List Registration :=
  let u8 := Ty.prim .u8
  [.cls 0 "A" [Ty.reference 1 "Box" [u8]], .cls 0 "A" [Ty.reference 1 "Box" [], u8],
    .cls 0 "A" [(Ty.reference 1 "Box" [u8]).array], .cls 0 "A" [Ty.reference 1 "Box" [u8.array]],
    .cls 0 "A" [u8.nullable], .cls 0 "A" [Ty.reference 2 "u8_" []]]

theorem collidingCalls_symbols :
    (Registry.ofCalls collidingCalls).classes.keys =
      ["A<Box<u8>>", "A<Box, u8>", "A<Box<u8>[]>", "A<Box<u8[]>>", "A<u8?>", "A<u8_>"] ∧
    (Registry.ofCalls collidingCalls).classes.keys.map symbolOf =
      ["A$Box$u8", "A$Box$u8", "A$Box$u8__", "A$Box$u8__", "A$u8_", "A$u8_"] := by
  decide

end Instantiation

end Ascribe
