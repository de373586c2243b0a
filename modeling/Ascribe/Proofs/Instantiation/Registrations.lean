import Ascribe.Instantiation.Registry

/-!
# Runs of a registry

A registry is only ever changed by logging classes, functions and methods. `Registry.ofCalls` is the registry
after a run of such calls. What holds of an empty registry and is kept by one call holds after every run;
here, that each class is filed under the key of its name and its arguments. A call files nothing but its own arguments
(`Registry.mem_entries_log`).
-/

namespace Ascribe.Instantiation

/-- A call that logs an instantiation. -/
inductive Registration where
  | cls (decl : NodeId) (name : String) (args : List Ty)
  | function (decl : NodeId) (name : String) (args : List Ty)
  | method (classKey : String) (decl : NodeId) (name : String) (args : List Ty)

/-- The arguments at which a declaration is instantiated. -/
def Registration.args : Registration → List Ty
  | .cls _ _ args | .function _ _ args | .method _ _ _ args => args

namespace Registry

/-- The registry after a call. -/
def log (r : Registry) : Registration → Registry
  | .cls decl name args => (r.addClass decl name args).2
  | .function decl name args => (r.addFunction decl name args).2
  | .method classKey decl name args => (r.addMethod classKey decl name args).2

/-- The registry after a run of calls. -/
def ofCalls (calls : List Registration) : Registry :=
  calls.foldl log {}

end Registry

/-- `store` leaves in a table what it held before, or the entry under its key. -/
theorem get?_store_cases {entries : Table String Entry} {entry found : Entry} {key : String}
    (h : (store entries entry).get? key = some found) :
    entries.get? key = some found ∨ key = entry.key ∧ found = entry := by
  rw [store] at h
  split at h
  · rw [Table.get?_insert] at h
    split at h
    · next hkey => exact .inr ⟨eq_of_beq hkey, (Option.some.inj h).symm⟩
    · exact .inl h
  · exact .inl h

theorem mem_values_store {entries : Table String Entry} {entry found : Entry}
    (h : found ∈ (store entries entry).values) : found = entry ∨ found ∈ entries.values := by
  rw [store] at h
  split at h
  · exact Table.mem_values_insert h
  · exact .inr h

namespace Registry

/-- Everything that is filed. -/
def entries (r : Registry) : List Entry :=
  r.classes.values ++ r.methods.values.flatMap Table.values ++ r.functions.values

/-- `log` files nothing but the arguments of its call. -/
theorem mem_entries_log {r : Registry} {call : Registration} {entry : Entry} (h : entry ∈ (r.log call).entries) :
    entry.args = call.args ∨ entry ∈ r.entries := by
  cases call with
  | cls decl name args =>
    simp only [entries, Registry.log, addClass, List.mem_append] at h ⊢
    rcases h with (hclass | hmethod) | hfunction
    · rcases mem_values_store hclass with rfl | hold
      · exact .inl rfl
      · exact .inr (.inl (.inl hold))
    · exact .inr (.inl (.inr hmethod))
    · exact .inr (.inr hfunction)
  | function decl name args =>
    simp only [entries, Registry.log, addFunction, List.mem_append] at h ⊢
    rcases h with (hclass | hmethod) | hfunction
    · exact .inr (.inl (.inl hclass))
    · exact .inr (.inl (.inr hmethod))
    · rcases mem_values_store hfunction with rfl | hold
      · exact .inl rfl
      · exact .inr (.inr hold)
  | method classKey decl name args =>
    simp only [entries, Registry.log, addMethod, List.mem_append] at h ⊢
    split at h
    · rcases h with (hclass | hmethod) | hfunction
      · exact .inr (.inl (.inl hclass))
      · -- the methods of the class are filed again, with the new one among them
        obtain ⟨known, hknown, hentry⟩ := List.mem_flatMap.mp hmethod
        rcases Table.mem_values_insert hknown with rfl | hold
        · rcases mem_values_store hentry with rfl | hold
          · exact .inl rfl
          · cases hget : r.methods.get? classKey with
            | none =>
              rw [hget] at hold
              exact absurd hold List.not_mem_nil
            | some before =>
              rw [hget] at hold
              exact .inr (.inl (.inr (List.mem_flatMap.mpr ⟨before, Table.mem_values_of_get? hget, hold⟩)))
        · exact .inr (.inl (.inr (List.mem_flatMap.mpr ⟨known, hold, hentry⟩)))
      · exact .inr (.inr hfunction)
    · exact .inr h

/-- Whether every class is filed under the key of its name and its arguments. -/
def FilesClasses (r : Registry) : Prop :=
  ∀ key entry, r.class? key = some entry → key = keyOf entry.name entry.args

theorem FilesClasses.log {r : Registry} (h : r.FilesClasses) (call : Registration) :
    (r.log call).FilesClasses := by
  intro key entry hentry
  cases call with
  | cls decl name args =>
    rcases get?_store_cases hentry with hold | ⟨hkey, hnew⟩
    · exact h key entry hold
    · rw [hkey, hnew]
  | function decl name args => exact h key entry hentry
  | method classKey decl name args =>
    -- a method is logged beside the classes, whether or not it is stored
    have hclasses : (r.log (.method classKey decl name args)).classes = r.classes := by
      simp only [Registry.log, addMethod]
      split <;> rfl
    rw [class?, hclasses] at hentry
    exact h key entry hentry

theorem ofCalls_filesClasses (calls : List Registration) : (ofCalls calls).FilesClasses := by
  have run (r : Registry) (h : r.FilesClasses) : (calls.foldl Registry.log r).FilesClasses := by
    induction calls generalizing r with
    | nil => exact h
    | cons call calls ih => exact ih (r.log call) (h.log call)
  apply run
  intro key entry hentry
  cases hentry

end Registry

end Ascribe.Instantiation
