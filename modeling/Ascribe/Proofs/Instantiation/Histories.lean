import Mathlib.Data.List.Induction
import Ascribe.Proofs.Instantiation.Registrations
import Ascribe.Proofs.Table

/-!
# The history of a registry

A registry can be read off the calls that were made since it was last cleared. The three sorts of instantiations are
kept alike, so each table of a registry has a shelf: one for the classes, one for the functions and one for the methods
of each class instantiation. A shelf lists the first concrete call under each key, in order (`filed`).

One call stores at most one entry on its own shelf and leaves the others alone (`Registry.table_log`). So a history that
grows by a call grows what is filed by at most one entry (`filed_concat`), and a registry and its history stay in step
(`Registry.Records.log`). What else there is to say about a registry follows from its history.

## Key results

- `Registry.table_log`: what a call does to each shelf
- `Registry.Records.ofActions`: a registry lists what its history files
- `Registry.ofActions_isAfter`: what holds of a registry after any calls and clears
-/

namespace Ascribe.Instantiation

/-! ## Shelves -/

/-- A list of instantiations. The methods of each class instantiation have one of their own. -/
inductive Shelf where
  | classes
  | functions
  | methods (classKey : String)
  deriving DecidableEq

namespace Shelf

/-- The class instantiation that the entries of a shelf belong to. -/
def classKey? : Shelf → Option String
  | .methods classKey => some classKey
  | _ => none

/-- The key on a shelf of a name at some arguments. -/
def keyOf (name : String) (args : List Ty) : Shelf → String
  | .methods classKey => classKey ++ "::" ++ Instantiation.keyOf name args
  | _ => Instantiation.keyOf name args

end Shelf

namespace Registration

/-- The shelf that a call is about. -/
def shelf : Registration → Shelf
  | .cls .. => .classes
  | .function .. => .functions
  | .method classKey .. => .methods classKey

def decl : Registration → NodeId
  | .cls decl .. | .function decl .. | .method _ decl .. => decl

def name : Registration → String
  | .cls _ name _ | .function _ name _ | .method _ _ name _ => name

/-- The key of what a call logs. -/
def key (call : Registration) : String :=
  call.shelf.keyOf call.name call.args

/-- The entry of what a call logs. -/
def entry (call : Registration) : Entry where
  key := call.key
  decl := call.decl
  name := call.name
  args := call.args
  classKey := call.shelf.classKey?

/-- The class instantiation that a call stores a method for, unless it has one stored under its key. -/
def methodOf? (call : Registration) : Option String :=
  if isConcrete call.args then call.shelf.classKey? else none

end Registration

namespace Registry

/-- The entries of a shelf under their keys. -/
def table (r : Registry) : Shelf → Table String Entry
  | .classes => r.classes
  | .functions => r.functions
  | .methods classKey => (r.methods.get? classKey).getD ∅

/-- The key that a call gives back. -/
def answer (r : Registry) : Registration → String
  | .cls decl name args => (r.addClass decl name args).1
  | .function decl name args => (r.addFunction decl name args).1
  | .method classKey decl name args => (r.addMethod classKey decl name args).1

theorem answer_eq_key (r : Registry) (call : Registration) : r.answer call = call.key := by
  cases call with
  | cls | function => rfl
  | method classKey decl name args =>
    simp only [answer, addMethod]
    split <;> rfl

/-- `log` files a concrete method call under `methods`, among those of its class instantiation. -/
theorem log_method (r : Registry) (classKey : String) (decl : NodeId) (name : String) (args : List Ty)
    (h : isConcrete args = true) :
    r.log (.method classKey decl name args) = { r with
      methods := r.methods.insert classKey
        (store (r.table (.methods classKey)) (Registration.method classKey decl name args).entry) } := by
  simp only [Registry.log, addMethod, h, if_true]
  rfl

theorem store_of_open {entries : Table String Entry} {entry : Entry} (h : isConcrete entry.args = false) :
    store entries entry = entries := by
  simp [store, h]

/-- `log` changes nothing for a call whose arguments are not `isConcrete`. -/
theorem log_of_open (r : Registry) {call : Registration} (h : isConcrete call.args = false) : r.log call = r := by
  cases call with
  | cls decl name args =>
    show { r with classes := store r.classes _ } = r
    rw [store_of_open h]
  | function decl name args =>
    show { r with functions := store r.functions _ } = r
    rw [store_of_open h]
  | method classKey decl name args =>
    rw [Registration.args] at h
    simp [Registry.log, addMethod, h]

/-- `log` stores the entry of a call on its own `shelf`, if anywhere. -/
theorem table_log (r : Registry) (call : Registration) (shelf : Shelf) :
    (r.log call).table shelf =
      if shelf = call.shelf then store (r.table shelf) call.entry else r.table shelf := by
  cases hconcrete : isConcrete call.args with
  | false => rw [log_of_open r hconcrete, store_of_open hconcrete, ite_self]
  | true =>
    cases call with
    | cls decl name args | function decl name args => cases shelf <;> rfl
    | method classKey decl name args =>
      rw [log_method r classKey decl name args hconcrete]
      cases shelf with
      | classes | functions => rfl
      | methods other =>
        simp only [table, Table.get?_insert, Registration.shelf, Shelf.methods.injEq, beq_iff_eq]
        split
        · next heq =>
          subst heq
          rfl
        · rfl

end Registry

/-! ## What a history files -/

/-- `eraseDupsBy` keeps the first of equal elements, so it adds one more element or leaves it out. -/
private theorem eraseDupsBy_concat {α : Type} (eq : α → α → Bool) (xs : List α) (x : α) :
    (xs ++ [x]).eraseDupsBy eq =
      if (xs.eraseDupsBy eq).any (eq x) then xs.eraseDupsBy eq else xs.eraseDupsBy eq ++ [x] := by
  have loop (kept : List α) : List.eraseDupsBy.loop eq (xs ++ [x]) kept =
      if (List.eraseDupsBy.loop eq xs kept).any (eq x) then List.eraseDupsBy.loop eq xs kept
      else List.eraseDupsBy.loop eq xs kept ++ [x] := by
    induction xs generalizing kept with
    | nil =>
      simp only [List.nil_append, List.eraseDupsBy.loop, List.any_reverse]
      cases kept.any (eq x) <;> simp
    | cons y ys ih =>
      rw [List.cons_append, List.eraseDupsBy.loop, List.eraseDupsBy.loop]
      cases hknown : kept.any (eq y) with
      | true => exact ih kept
      | false => exact ih (y :: kept)
  exact loop []

/-- The entries that calls file on a shelf: the first concrete one under each key. -/
def filed (shelf : Shelf) (calls : List Registration) : List Entry :=
  ((calls.filter fun call => call.shelf = shelf && isConcrete call.args).map Registration.entry).eraseDupsBy
    fun later earlier => later.key == earlier.key

/-- The class instantiations that calls file methods for, in order. -/
def filedFor (calls : List Registration) : List String :=
  (calls.filterMap Registration.methodOf?).eraseDups

/-- `filed` gains the entry of one more call on its own shelf if the call is concrete and its key is new. -/
theorem filed_concat (shelf : Shelf) (calls : List Registration) (call : Registration) :
    filed shelf (calls ++ [call]) =
      if call.shelf = shelf ∧ isConcrete call.args = true ∧ call.key ∉ (filed shelf calls).map (·.key) then
        filed shelf calls ++ [call.entry]
      else filed shelf calls := by
  rw [filed, List.filter_append, List.map_append]
  by_cases hhere : call.shelf = shelf ∧ isConcrete call.args = true
  · have hknown : ((filed shelf calls).any fun earlier => call.entry.key == earlier.key) = true ↔
        call.key ∈ (filed shelf calls).map (·.key) := by
      rw [List.any_eq_true, List.mem_map]
      exact exists_congr fun earlier => and_congr_right fun _ => by rw [beq_iff_eq, eq_comm, Registration.entry]
    rw [List.filter_cons_of_pos (by simpa using hhere), List.filter_nil, List.map_singleton, eraseDupsBy_concat]
    show (if (filed shelf calls).any _ then filed shelf calls else filed shelf calls ++ [call.entry]) = _
    simp only [hknown, hhere, true_and, ite_not]
  · rw [List.filter_cons_of_neg (by simpa using hhere), List.filter_nil, List.map_nil, List.append_nil,
      if_neg fun h => hhere ⟨h.1, h.2.1⟩, filed]

/-- Every entry that is `filed` comes from a concrete call. -/
theorem exists_call_of_mem_filed {shelf : Shelf} {calls : List Registration} {entry : Entry}
    (h : entry ∈ filed shelf calls) :
    ∃ call ∈ calls, call.shelf = shelf ∧ isConcrete call.args = true ∧ call.entry = entry := by
  induction calls using List.reverseRecOn with
  | nil => cases h
  | append_singleton calls call ih =>
    rw [filed_concat] at h
    split at h
    · next hnew =>
      rcases List.mem_append.mp h with hold | hlast
      · obtain ⟨earlier, hmem, hrest⟩ := ih hold
        exact ⟨earlier, List.mem_append_left _ hmem, hrest⟩
      · exact ⟨call, by simp, hnew.1, hnew.2.1, (List.mem_singleton.mp hlast).symm⟩
    · obtain ⟨earlier, hmem, hrest⟩ := ih h
      exact ⟨earlier, List.mem_append_left _ hmem, hrest⟩

theorem nodup_keys_filed (shelf : Shelf) (calls : List Registration) : ((filed shelf calls).map (·.key)).Nodup := by
  induction calls using List.reverseRecOn with
  | nil => exact List.nodup_nil
  | append_singleton calls call ih =>
    rw [filed_concat]
    split
    · next hnew =>
      rw [List.map_append, List.map_singleton]
      exact List.nodup_append_comm.mp (List.nodup_cons.mpr ⟨hnew.2.2, ih⟩)
    · exact ih

/-- Every concrete call has its key `filed` on its shelf. -/
theorem key_mem_filed {calls : List Registration} {call : Registration} (h : call ∈ calls)
    (hconcrete : isConcrete call.args = true) : call.key ∈ (filed call.shelf calls).map (·.key) := by
  induction calls using List.reverseRecOn with
  | nil => cases h
  | append_singleton calls last ih =>
    rw [filed_concat]
    rcases List.mem_append.mp h with hearlier | hlast
    · split
      · rw [List.map_append]
        exact List.mem_append_left _ (ih hearlier)
      · exact ih hearlier
    · obtain rfl := List.mem_singleton.mp hlast
      split
      · simp [Registration.entry]
      · next hold => exact not_not.mp fun hnew => hold ⟨rfl, hconcrete, hnew⟩

/-- `filedFor` lists the class instantiations whose shelf of methods is not empty. -/
theorem mem_filedFor {calls : List Registration} {classKey : String} :
    classKey ∈ filedFor calls ↔ filed (.methods classKey) calls ≠ [] := by
  have hof (call : Registration) :
      call.methodOf? = some classKey ↔ call.shelf = .methods classKey ∧ isConcrete call.args = true := by
    cases hshelf : call.shelf <;> simp [Registration.methodOf?, hshelf, Shelf.classKey?, and_comm]
  simp only [filedFor, List.mem_eraseDups, List.mem_filterMap, hof]
  constructor
  · rintro ⟨call, hcall, hshelf, hconcrete⟩ hnone
    have hkey := key_mem_filed hcall hconcrete
    rw [hshelf, hnone] at hkey
    cases hkey
  · intro h
    obtain ⟨entry, hentry⟩ := List.exists_mem_of_ne_nil _ h
    obtain ⟨call, hcall, hshelf, hconcrete, -⟩ := exists_call_of_mem_filed hentry
    exact ⟨call, hcall, hshelf, hconcrete⟩

/-- Keys with one more at the end, if it is new. -/
def addNew (keys : List String) : Option String → List String
  | some key => if key ∈ keys then keys else keys ++ [key]
  | none => keys

/-- `filedFor` gains the class instantiation of one more method call if that is the first one there. -/
theorem filedFor_concat (calls : List Registration) (call : Registration) :
    filedFor (calls ++ [call]) = addNew (filedFor calls) call.methodOf? := by
  rw [filedFor, List.filterMap_append]
  cases hof : call.methodOf? with
  | none => rw [List.filterMap_cons_none hof, List.filterMap_nil, List.append_nil, addNew, filedFor]
  | some key =>
    rw [List.filterMap_cons_some hof, List.filterMap_nil, List.eraseDups, eraseDupsBy_concat]
    show (if (filedFor calls).any (key == ·) then filedFor calls else filedFor calls ++ [key]) = _
    simp [addNew]

theorem nodup_filedFor (calls : List Registration) : (filedFor calls).Nodup := by
  induction calls using List.reverseRecOn with
  | nil => exact List.nodup_nil
  | append_singleton calls call ih =>
    rw [filedFor_concat]
    cases call.methodOf? with
    | none => exact ih
    | some key =>
      rw [addNew]
      split
      · exact ih
      · next hnew => exact List.nodup_append_comm.mp (List.nodup_cons.mpr ⟨hnew, ih⟩)

/-! ## A registry and its history -/

/-- What a host does to a registry. -/
inductive Action where
  | log (call : Registration)
  | clear

/-- The calls since the last clear. -/
def sinceClear (actions : List Action) : List Registration :=
  actions.foldl (fun calls action =>
    match action with
    | .log call => calls ++ [call]
    | .clear => []) []

namespace Registry

def perform (r : Registry) : Action → Registry
  | .log call => r.log call
  | .clear => r.clear

/-- The registry after some calls and clears. -/
def ofActions (actions : List Action) : Registry :=
  actions.foldl perform {}

/-- A registry lists what some calls file. -/
structure Records (r : Registry) (calls : List Registration) : Prop where
  tables : ∀ shelf, (r.table shelf).entries = (filed shelf calls).map fun entry => (entry.key, entry)
  classKeys : r.methods.keys = filedFor calls

/-- `store` adds an entry to a table of listed entries if it is concrete and its key is new. -/
theorem entries_store {entries : Table String Entry} {listed : List Entry}
    (h : entries.entries = listed.map fun entry => (entry.key, entry)) (entry : Entry) :
    (store entries entry).entries =
      (if isConcrete entry.args = true ∧ entry.key ∉ listed.map (·.key) then listed ++ [entry] else listed).map
        fun entry => (entry.key, entry) := by
  have hkeys : entries.entries.map Prod.fst = listed.map (·.key) := by rw [h, List.map_map]; rfl
  have hnew : (isConcrete entry.args && !entries.contains entry.key) = true ↔
      isConcrete entry.args = true ∧ entry.key ∉ listed.map (·.key) := by
    rw [Bool.and_eq_true, Bool.not_eq_true', ← Bool.not_eq_true, Table.contains_iff_mem_keys, Table.keys, hkeys]
  rw [store]
  split
  · next hstored =>
    rw [hnew] at hstored
    rw [if_pos hstored, Table.insert, Table.insertEntry_of_notMem (hkeys ▸ hstored.2), h, List.map_append,
      List.map_singleton]
  · next hkept => rw [if_neg (mt hnew.mpr hkept), h]

/-- `log` adds the class instantiation of a method call to `methods` if that is the first one there. -/
theorem keys_methods_log (r : Registry) (call : Registration) :
    (r.log call).methods.keys = addNew r.methods.keys call.methodOf? := by
  cases call with
  | cls | function => simp [Registry.log, addClass, addFunction, Registration.methodOf?, Registration.shelf,
      Shelf.classKey?, addNew]
  | method classKey decl name args =>
    cases hconcrete : isConcrete args with
    | false => simp [Registry.log, addMethod, Registration.methodOf?, Registration.args, hconcrete, addNew]
    | true =>
      simp [Registry.log, addMethod, Registration.methodOf?, Registration.args, Registration.shelf, Shelf.classKey?,
        hconcrete, addNew, Table.keys_insert, Table.contains_iff_mem_keys]

namespace Records

theorem empty : Records {} [] where
  tables shelf := by cases shelf <;> rfl
  classKeys := rfl

/-- `log` preserves `Records`, with the call added to the history. -/
theorem log {r : Registry} {calls : List Registration} (h : r.Records calls) (call : Registration) :
    (r.log call).Records (calls ++ [call]) where
  tables shelf := by
    rw [table_log, filed_concat]
    by_cases hshelf : shelf = call.shelf
    · rw [if_pos hshelf, entries_store (h.tables shelf)]
      simp only [hshelf, true_and]
      rfl
    · rw [if_neg hshelf, if_neg fun hhere => hshelf hhere.1.symm]
      exact h.tables shelf
  classKeys := by rw [keys_methods_log, filedFor_concat, h.classKeys]

theorem perform {r : Registry} {actions : List Action} (h : r.Records (sinceClear actions)) (action : Action) :
    (r.perform action).Records (sinceClear (actions ++ [action])) := by
  rw [sinceClear, List.foldl_append]
  cases action with
  | log call => exact h.log call
  | clear => exact empty

/-- `ofActions` gives a registry that `Records` the calls since the last clear. -/
theorem ofActions (actions : List Action) : (ofActions actions).Records (sinceClear actions) := by
  induction actions using List.reverseRecOn with
  | nil => exact empty
  | append_singleton actions action ih =>
    rw [Registry.ofActions, List.foldl_append]
    exact ih.perform action

end Records

/-! ## Calls without effect, and with any -/

/-- `log` changes nothing for a call whose key is on its shelf. -/
theorem log_of_known {r : Registry} {call : Registration} (h : call.key ∈ (r.table call.shelf).keys) :
    r.log call = r := by
  have hkept : store (r.table call.shelf) call.entry = r.table call.shelf := by
    rw [store, if_neg]
    rw [Bool.and_eq_true, Bool.not_eq_true', ← Bool.not_eq_true, Table.contains_iff_mem_keys]
    exact fun hstored => hstored.2 h
  cases hconcrete : isConcrete call.args with
  | false => exact log_of_open r hconcrete
  | true =>
    cases call with
    | cls decl name args => exact congrArg (fun classes => { r with classes }) hkept
    | function decl name args => exact congrArg (fun functions => { r with functions }) hkept
    | method classKey decl name args =>
      rw [log_method r classKey decl name args hconcrete]
      -- the methods of the class instantiation are filed again as they are
      cases hknown : r.methods.get? classKey with
      | none =>
        rw [Registration.shelf, table, hknown] at h
        cases h
      | some known =>
        have hsame : r.table (.methods classKey) = known := by rw [table, hknown, Option.getD_some]
        rw [Registration.shelf, hsame] at hkept
        rw [hsame, hkept, Table.insert_of_get? hknown]

/-- `log` only appends to the entries of every `table`. -/
theorem entries_prefix_log (r : Registry) (call : Registration) (shelf : Shelf) :
    (r.table shelf).entries <+: ((r.log call).table shelf).entries := by
  rw [table_log]
  split
  · rw [store]
    split
    · next hstored =>
      rw [Bool.and_eq_true, Bool.not_eq_true', ← Bool.not_eq_true, Table.contains_iff_mem_keys] at hstored
      rw [Table.insert, Table.insertEntry_of_notMem hstored.2]
      exact List.prefix_append _ _
    · exact List.prefix_rfl
  · exact List.prefix_rfl

theorem keys_methods_prefix_log (r : Registry) (call : Registration) :
    r.methods.keys <+: (r.log call).methods.keys := by
  rw [keys_methods_log]
  cases call.methodOf? with
  | none => exact List.prefix_rfl
  | some key =>
    rw [addNew]
    split
    · exact List.prefix_rfl
    · exact List.prefix_append _ _

/-! ## Runs -/

/-- A run of `log` only appends to the entries of every `table` and to the keys of `methods`. -/
theorem prefix_run (r : Registry) (more : List Registration) :
    (∀ shelf, (r.table shelf).entries <+: ((more.foldl Registry.log r).table shelf).entries) ∧
      r.methods.keys <+: (more.foldl Registry.log r).methods.keys := by
  induction more generalizing r with
  | nil => exact ⟨fun _ => List.prefix_rfl, List.prefix_rfl⟩
  | cons call rest ih =>
    obtain ⟨htables, hkeys⟩ := ih (r.log call)
    exact ⟨fun shelf => (r.entries_prefix_log call shelf).trans (htables shelf),
      (r.keys_methods_prefix_log call).trans hkeys⟩

/-- What holds of a registry after it was cleared and some calls were made. -/
structure IsAfter (r : Registry) (calls : List Registration) : Prop where
  /-- Every entry sits under the key of its name and its arguments, a method after the key of its class instantiation,
  under which it is filed. -/
  keyed : ∀ shelf, ∀ stored ∈ (r.table shelf).entries,
    stored.1 = shelf.keyOf stored.2.name stored.2.args ∧ stored.2.key = stored.1 ∧
      stored.2.classKey = shelf.classKey?
  /-- There are arguments, and none of them is open. -/
  concrete : ∀ shelf, ∀ entry ∈ (r.table shelf).values,
    entry.args ≠ [] ∧ ∀ t ∈ entry.args, t.hasGenerics = false
  /-- Entries are listed in the order of the first call under each key, and with what that call gave. -/
  ordered : (∀ shelf, (r.table shelf).values = filed shelf calls) ∧ r.methods.keys = filedFor calls
  distinct : (∀ shelf, (r.table shelf).keys.Nodup) ∧ r.methods.keys.Nodup
  /-- A call under a known key, without arguments or with an open one leaves everything as it is. -/
  idle : ∀ call : Registration,
    call.key ∈ (r.table call.shelf).keys ∨ call.args = [] ∨ (∃ t ∈ call.args, t.hasGenerics = true) → r.log call = r
  /-- Further calls add entries and leave those that are there in their places. -/
  kept : ∀ more : List Registration,
    (∀ shelf, (r.table shelf).entries <+: ((more.foldl Registry.log r).table shelf).entries) ∧
      r.methods.keys <+: (more.foldl Registry.log r).methods.keys
  /-- The key that a call gives back is told by the call alone. -/
  answers : ∀ call : Registration, r.answer call = call.key
  /-- A registry is empty if nothing is stored on any shelf. -/
  empty : r.isEmpty = true ↔ ∀ shelf, (r.table shelf).values = []

namespace Records

variable {r : Registry} {calls : List Registration} (h : r.Records calls)

include h

theorem values (shelf : Shelf) : (r.table shelf).values = filed shelf calls := by
  rw [Table.values, h.tables, List.map_map]
  exact List.map_id _

theorem keys (shelf : Shelf) : (r.table shelf).keys = (filed shelf calls).map (·.key) := by
  rw [Table.keys, h.tables, List.map_map]
  rfl

theorem isEmpty_iff : r.isEmpty = true ↔ ∀ shelf, (r.table shelf).values = [] := by
  simp only [Registry.isEmpty, Bool.and_eq_true, Table.isEmpty, List.isEmpty_iff, Table.values, List.map_eq_nil_iff]
  constructor
  · rintro ⟨⟨hclasses, hmethods⟩, hfunctions⟩ shelf
    cases shelf with
    | classes => exact hclasses
    | functions => exact hfunctions
    | methods classKey => rw [table, Table.get?, hmethods]; rfl
  · intro hnone
    refine ⟨⟨hnone .classes, ?_⟩, hnone .functions⟩
    -- a class instantiation that methods are listed for has one
    cases hmethods : r.methods.entries with
    | nil => rfl
    | cons first rest =>
      have hlisted : first.1 ∈ filedFor calls := by rw [← h.classKeys, Table.keys, hmethods]; exact List.mem_cons_self
      have hshelf := h.tables (.methods first.1)
      rw [hnone, eq_comm, List.map_eq_nil_iff] at hshelf
      exact absurd hshelf (mem_filedFor.mp hlisted)

theorem keyed (shelf : Shelf) {stored : String × Entry} (hstored : stored ∈ (r.table shelf).entries) :
    stored.1 = shelf.keyOf stored.2.name stored.2.args ∧ stored.2.key = stored.1 ∧
      stored.2.classKey = shelf.classKey? := by
  rw [h.tables] at hstored
  obtain ⟨entry, hentry, rfl⟩ := List.mem_map.mp hstored
  obtain ⟨call, -, rfl, -, rfl⟩ := exists_call_of_mem_filed hentry
  exact ⟨rfl, rfl, rfl⟩

theorem concrete (shelf : Shelf) {entry : Entry} (hentry : entry ∈ (r.table shelf).values) :
    entry.args ≠ [] ∧ ∀ t ∈ entry.args, t.hasGenerics = false := by
  rw [h.values] at hentry
  obtain ⟨call, -, -, hconcrete, rfl⟩ := exists_call_of_mem_filed hentry
  simpa [isConcrete, Registration.entry] using hconcrete

end Records

/-- What `ofActions` leaves behind. After any run of calls and clears each entry sits under its own key, has arguments
and no open one; the entries of each `Shelf` stand in the order in which their keys were first logged since the last
clear, each key once and with what its first call gave. `log` of a call under a known key, or whose arguments are
missing or open, changes nothing, and no call drops or alters an entry. The key that a call gives back depends on the
call alone, and the registry is empty if it stores nothing. -/
theorem ofActions_isAfter (actions : List Action) : (ofActions actions).IsAfter (sinceClear actions) := by
  have h := Records.ofActions actions
  exact {
    keyed := fun shelf _ => h.keyed shelf
    concrete := fun shelf _ => h.concrete shelf
    ordered := ⟨h.values, h.classKeys⟩
    distinct := ⟨fun shelf => h.keys shelf ▸ nodup_keys_filed shelf _, h.classKeys ▸ nodup_filedFor _⟩
    idle := by
      rintro call (hknown | hnone | ⟨t, ht, hopen⟩)
      · exact log_of_known hknown
      · exact log_of_open _ (by simp [isConcrete, hnone])
      · exact log_of_open _ (by simpa [isConcrete] using fun _ => ⟨t, ht, hopen⟩)
    kept := prefix_run _
    answers := answer_eq_key _
    empty := h.isEmpty_iff }

end Registry

end Ascribe.Instantiation
