import Mathlib.Data.List.Basic
import Mathlib.Data.List.Induction
import QueryAudit.Data.Keyed

/-!
# QueryAudit.Proofs.Data.Keyed

Maps that remember the order of their keys, as a whole.  Such a map is known from its keys
and from what is found under them, and bindings made one after the other leave each key
where it was bound first, with the value that it was bound to last.

* `ext_find?` — when two maps are equal;
* `values_eq_filterMap` — the values are what is found under the keys;
* `find?_insertAll`, `keys_insertAll` — bindings made one after the other.
-/

namespace QueryAudit

universe u v

namespace Keyed

variable {κ : Type u} {α : Type v} [DecidableEq κ]

theorem find?_eq_none_iff {m : Keyed κ α} {key : κ} : m.find? key = none ↔ key ∉ m.keys := by
  rw [← isSome_find?, Bool.not_eq_true, Option.isSome_eq_false_iff, Option.isNone_iff_eq_none]

/-- Maps are equal when their keys are, in order, and under each key the same is found. -/
theorem ext_find? {m m' : Keyed κ α} (hkeys : m.keys = m'.keys) (hnodup : m.keys.Nodup)
    (hfind : ∀ key, m.find? key = m'.find? key) : m = m' := by
  obtain ⟨entries⟩ := m
  obtain ⟨entries'⟩ := m'
  congr 1
  induction entries generalizing entries' with
  | nil => exact (List.map_eq_nil_iff.1 hkeys.symm).symm
  | cons entry rest ih =>
      obtain ⟨key, value⟩ := entry
      cases entries' with
      | nil => simp [keys] at hkeys
      | cons entry' rest' =>
          obtain ⟨key', value'⟩ := entry'
          obtain ⟨rfl, hrest⟩ := List.cons.inj hkeys
          obtain ⟨hnew, hnodup⟩ := List.nodup_cons.1 hnodup
          have hvalue : some value = some value' := by simpa [find?, findIn] using hfind key
          rw [Option.some.inj hvalue, ih hnodup rest' hrest]
          intro other
          by_cases hother : key = other
          · subst hother
            rw [find?_eq_none_iff.2 hnew, find?_eq_none_iff.2 (by rwa [keys, ← hrest])]
          · simpa [find?, findIn, hother] using hfind other

/-- **The values** stand in the order of their keys. -/
theorem values_eq_filterMap {m : Keyed κ α} (h : m.keys.Nodup) :
    m.values = m.keys.filterMap m.find? := by
  obtain ⟨entries⟩ := m
  induction entries with
  | nil => rfl
  | cons entry rest ih =>
      obtain ⟨key, value⟩ := entry
      obtain ⟨hnew, hnodup⟩ := List.nodup_cons.1 h
      have hrest : (rest.map (·.1)).filterMap (find? ⟨(key, value) :: rest⟩)
          = (rest.map (·.1)).filterMap (find? ⟨rest⟩) := by
        refine List.filterMap_congr fun other hother => ?_
        have hne : key ≠ other := fun heq => hnew (heq ▸ hother)
        simp [find?, findIn, hne]
      have hfirst : find? ⟨(key, value) :: rest⟩ key = some value := by simp [find?, findIn]
      have hvalues : rest.map (·.2) = (rest.map (·.1)).filterMap (find? ⟨rest⟩) := ih hnodup
      rw [values, keys, List.map_cons, List.map_cons, List.filterMap_cons, hfirst, hrest, hvalues]

/-- Bind keys, one after the other. -/
def insertAll (entries : List (κ × α)) : Keyed κ α :=
  entries.foldl (fun m entry => m.insert entry.1 entry.2) .empty

theorem insertAll_append (entries : List (κ × α)) (entry : κ × α) :
    insertAll (entries ++ [entry]) = (insertAll entries).insert entry.1 entry.2 := by
  simp [insertAll]

/-- **The last value** that a key is bound to counts. -/
theorem find?_insertAll (entries : List (κ × α)) (key : κ) :
    (insertAll entries).find? key = (entries.reverse.find? (·.1 = key)).map Prod.snd := by
  induction entries using List.reverseRecOn with
  | nil => rfl
  | append_singleton entries entry ih =>
      rw [insertAll_append, find?_insert, List.reverse_append, List.reverse_singleton,
        List.singleton_append, List.find?_cons, ih]
      by_cases h : entry.1 = key <;> simp [h]

/-- **The first place** that a key is bound at counts. -/
theorem keys_insertAll (entries : List (κ × α)) :
    (insertAll entries).keys = (entries.map Prod.fst).eraseDups := by
  induction entries using List.reverseRecOn with
  | nil => rfl
  | append_singleton entries entry ih =>
      rw [insertAll_append, keys_insert, ih, List.map_append, List.eraseDups_append]
      by_cases h : entry.1 ∈ entries.map Prod.fst <;> simp [h, List.removeAll, List.eraseDups_cons]

theorem nodup_keys_insertAll (entries : List (κ × α)) : (insertAll entries).keys.Nodup := by
  induction entries using List.reverseRecOn with
  | nil => exact List.nodup_nil
  | append_singleton entries entry ih =>
      rw [insertAll_append]
      exact nodup_keys_insert ih entry.1 entry.2

end Keyed

end QueryAudit
