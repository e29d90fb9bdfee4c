/-!
# QueryAudit.Data.Keyed

A finite map that remembers in which order its keys were first bound.  Binding a
key again replaces its value and keeps its place.

* `find?_insert` — a binding is found again, and no other key is touched;
* `keys_insert` — a new key goes to the end, a known one stays where it is;
* `nodup_keys_insert` — keys stay distinct.
-/

namespace QueryAudit

universe u v

/-- A list of bindings in the order in which their keys were first bound. -/
structure Keyed (κ : Type u) (α : Type v) where
  entries : List (κ × α)
deriving Repr

namespace Keyed

variable {κ : Type u} {α : Type v}

/-- The map without bindings. -/
def empty : Keyed κ α := ⟨[]⟩

instance : Inhabited (Keyed κ α) := ⟨empty⟩

instance [DecidableEq κ] [DecidableEq α] : DecidableEq (Keyed κ α) := fun a b =>
  match decEq a.entries b.entries with
  | isTrue h => isTrue (by cases a; cases b; simp_all)
  | isFalse h => isFalse fun e => h (e ▸ rfl)

/-- The bound keys in the order of their first binding. -/
def keys (m : Keyed κ α) : List κ := m.entries.map (·.1)

/-- The bound values, each in the place of its key. -/
def values (m : Keyed κ α) : List α := m.entries.map (·.2)

variable [DecidableEq κ]

/-- The value of the first binding of `key` in a list of bindings. -/
def findIn (key : κ) : List (κ × α) → Option α
  | [] => none
  | (k, a) :: rest => if k = key then some a else findIn key rest

/-- Bind `key` in a list of bindings: in its place when it is bound, else at the end. -/
def insertIn (key : κ) (value : α) : List (κ × α) → List (κ × α)
  | [] => [(key, value)]
  | (k, a) :: rest => if k = key then (key, value) :: rest else (k, a) :: insertIn key value rest

/-- The value bound to a key. -/
def find? (m : Keyed κ α) (key : κ) : Option α := findIn key m.entries

/-- Bind a key.  A known key keeps its place and gets the new value. -/
def insert (m : Keyed κ α) (key : κ) (value : α) : Keyed κ α := ⟨insertIn key value m.entries⟩

@[simp] theorem find?_empty (key : κ) : (empty : Keyed κ α).find? key = none := rfl

@[simp] theorem findIn_insertIn (key other : κ) (value : α) (l : List (κ × α)) :
    findIn other (insertIn key value l) = if key = other then some value else findIn other l := by
  induction l with
  | nil => simp [insertIn, findIn]
  | cons entry rest ih =>
    obtain ⟨k, a⟩ := entry
    by_cases hk : k = key
    · subst hk; by_cases ho : k = other <;> simp [insertIn, findIn, ho]
    · by_cases ho : k = other
      · subst ho; simp [insertIn, findIn, hk, Ne.symm hk]
      · simp [insertIn, findIn, hk, ho, ih]

/-- A binding is found again, and every other key has the value it had. -/
theorem find?_insert (m : Keyed κ α) (key other : κ) (value : α) :
    (m.insert key value).find? other = if key = other then some value else m.find? other :=
  findIn_insertIn key other value m.entries

theorem find?_insert_self (m : Keyed κ α) (key : κ) (value : α) :
    (m.insert key value).find? key = some value := by
  simp [find?_insert]

theorem find?_insert_of_ne (m : Keyed κ α) {key other : κ} (value : α) (h : key ≠ other) :
    (m.insert key value).find? other = m.find? other := by
  simp [find?_insert, h]

/-- A key is found exactly when it is bound. -/
theorem isSome_find? (m : Keyed κ α) (key : κ) : (m.find? key).isSome = true ↔ key ∈ m.keys := by
  obtain ⟨l⟩ := m
  induction l with
  | nil => simp [find?, findIn, keys]
  | cons entry rest ih =>
    obtain ⟨k, a⟩ := entry
    by_cases hk : k = key
    · subst hk; simp [find?, findIn, keys]
    · simpa [find?, findIn, keys, hk, Ne.symm hk] using ih

/-- A new key goes to the end and a known key stays in its place. -/
theorem keys_insert (m : Keyed κ α) (key : κ) (value : α) :
    (m.insert key value).keys = if key ∈ m.keys then m.keys else m.keys ++ [key] := by
  obtain ⟨l⟩ := m
  induction l with
  | nil => simp [insert, insertIn, keys]
  | cons entry rest ih =>
    obtain ⟨k, a⟩ := entry
    by_cases hk : k = key
    · subst hk; simp [insert, insertIn, keys]
    · simp only [insert, insertIn, keys, hk, if_false, List.map_cons, List.mem_cons,
        Ne.symm hk, false_or] at ih ⊢
      by_cases hm : key ∈ rest.map (·.1) <;> simp [ih, hm]

/-- Binding a key keeps the keys distinct. -/
theorem nodup_keys_insert {m : Keyed κ α} (h : m.keys.Nodup) (key : κ) (value : α) :
    (m.insert key value).keys.Nodup := by
  rw [keys_insert]
  split
  · exact h
  · rename_i hk
    exact List.nodup_append.2 ⟨h, by simp, by
      intro a ha b hb
      simp only [List.mem_singleton] at hb
      subst hb
      exact fun e => hk (e ▸ ha)⟩

end Keyed

end QueryAudit
