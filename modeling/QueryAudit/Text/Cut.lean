/-!
# QueryAudit.Text.Cut

Cutting a text at a separator, and finding one text in another.  Texts are
lists of characters here, so that every statement about them is one about lists.

* `eq_append_of_cut`, `cut_eq_none_iff` — a cut loses nothing and is made at
  the first separator;
* `occursIn_iff` — `occursIn` decides "is a contiguous part of".
-/

namespace QueryAudit

/-- The characters before and after the first `sep`, or `none` when there is none. -/
def cut (sep : Char) (cs : List Char) : Option (List Char × List Char) :=
  match cs.dropWhile (· != sep) with
  | [] => none
  | _ :: after => some (cs.takeWhile (· != sep), after)

/-- Whether `part` stands somewhere in a text without a gap. -/
def occursIn (part : List Char) : List Char → Bool
  | [] => part.isEmpty
  | c :: cs => part.isPrefixOf (c :: cs) || occursIn part cs

theorem length_dropWhile_le {α : Type} (p : α → Bool) (l : List α) :
    (l.dropWhile p).length ≤ l.length :=
  (List.dropWhile_suffix p).length_le

/-- A cut text is put together again by the separator. -/
theorem eq_append_of_cut {sep : Char} {cs before after : List Char}
    (h : cut sep cs = some (before, after)) : cs = before ++ sep :: after := by
  induction cs generalizing before with
  | nil => simp [cut] at h
  | cons c cs ih =>
    by_cases hc : c = sep
    · subst hc; simp [cut] at h; obtain ⟨rfl, rfl⟩ := h; rfl
    · unfold cut at h ih
      simp only [List.dropWhile_cons, List.takeWhile_cons, bne_iff_ne, ne_eq, hc,
        not_false_eq_true, if_true] at h
      split at h
      · simp at h
      · rename_i x a hx
        simp only [Option.some.injEq, Prod.mk.injEq] at h
        obtain ⟨rfl, rfl⟩ := h
        rw [List.cons_append, ← ih (by rw [hx])]

/-- There is no separator before the cut. -/
theorem not_mem_of_cut {sep : Char} {cs before after : List Char}
    (h : cut sep cs = some (before, after)) : sep ∉ before := by
  unfold cut at h
  split at h
  · contradiction
  · cases h
    intro hmem
    simpa using List.all_eq_true.1 List.all_takeWhile sep hmem

/-- Only a text without the separator cannot be cut. -/
theorem cut_eq_none_iff {sep : Char} {cs : List Char} : cut sep cs = none ↔ sep ∉ cs := by
  induction cs with
  | nil => simp [cut]
  | cons c cs ih =>
    by_cases hc : c = sep
    · subst hc; simp [cut]
    · unfold cut at ih ⊢
      simp only [List.dropWhile_cons, bne_iff_ne, ne_eq, hc, not_false_eq_true, if_true,
        List.mem_cons, Ne.symm hc, false_or]
      rw [← ih]
      split <;> simp

/-- A text is cut at the first separator. -/
theorem cut_append_cons {sep : Char} {before after : List Char} (h : sep ∉ before) :
    cut sep (before ++ sep :: after) = some (before, after) := by
  have hp : ∀ c ∈ before, (c != sep) = true := fun c hc => by
    have hne : c ≠ sep := fun e => h (e ▸ hc)
    simpa using hne
  simp [cut, List.dropWhile_append_of_pos hp, List.takeWhile_append_of_pos hp]

/-- Finding a part means being able to point at it. -/
theorem occursIn_iff {part cs : List Char} : occursIn part cs = true ↔ part <:+: cs := by
  induction cs with
  | nil => simp [occursIn]
  | cons c cs ih =>
    simp only [occursIn, Bool.or_eq_true, List.isPrefixOf_iff_prefix, ih, List.infix_cons_iff]

end QueryAudit
