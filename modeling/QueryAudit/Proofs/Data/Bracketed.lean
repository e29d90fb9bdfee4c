import Mathlib.Data.List.Basic

/-!
# QueryAudit.Proofs.Data.Bracketed

Lists in which some members open something and others close it.  `Bracketed opens closes l most`
says that nothing is closed in `l` before it is opened, that all is closed in the end, and that
`most` is the largest number of things that are open at once.

* `Bracketed.append`, `Bracketed.behind` — such lists one after the other;
* `Bracketed.around` — such a list inside something that is opened in front of it and closed
  behind it.
-/

namespace QueryAudit

variable {α : Type*} {opens closes : α → Bool}

/-- A list that opens and closes, with `most` things open at some moment and no more at any. -/
structure Bracketed (opens closes : α → Bool) (l : List α) (most : Nat) : Prop where
  closed_le : ∀ k, (l.take k).countP closes ≤ (l.take k).countP opens
  opened_le : ∀ k, (l.take k).countP opens ≤ (l.take k).countP closes + most
  attained : ∃ k, (l.take k).countP opens = (l.take k).countP closes + most
  settled : l.countP opens = l.countP closes

/-- A moment of two lists is one of the first, or one of the second. -/
theorem take_append_cases (l m : List α) (k : Nat) :
    (l ++ m).take k = l.take k ∨ ∃ j, (l ++ m).take k = l ++ m.take j := by
  rcases Nat.le_total k l.length with hle | hle
  · exact Or.inl (List.take_append_of_le_length hle)
  · exact Or.inr ⟨k - l.length, by rw [List.take_append, List.take_of_length_le hle]⟩

namespace Bracketed

/-- A list that neither opens nor closes. -/
theorem of_none {l : List α} (hopens : l.countP opens = 0) (hcloses : l.countP closes = 0) :
    Bracketed opens closes l 0 := by
  have hnone : ∀ k, (l.take k).countP opens = 0 ∧ (l.take k).countP closes = 0 := fun k =>
    ⟨Nat.le_zero.1 (hopens ▸ (List.take_sublist k l).countP_le),
      Nat.le_zero.1 (hcloses ▸ (List.take_sublist k l).countP_le)⟩
  refine ⟨fun k => ?_, fun k => ?_, ⟨0, rfl⟩, by rw [hopens, hcloses]⟩
  · exact Nat.le_of_eq ((hnone k).2.trans (hnone k).1.symm)
  · exact Nat.le_trans (Nat.le_of_eq (hnone k).1) (Nat.zero_le _)

/-- **One list after the other** has as much open as the one or the other. -/
theorem append {l m : List α} {a b : Nat} (hl : Bracketed opens closes l a)
    (hm : Bracketed opens closes m b) : Bracketed opens closes (l ++ m) (max a b) where
  closed_le k := by
    rcases take_append_cases l m k with h | ⟨j, h⟩
    · rw [h]
      exact hl.closed_le k
    · have hj := hm.closed_le j
      rw [h, List.countP_append, List.countP_append, hl.settled]
      omega
  opened_le k := by
    rcases take_append_cases l m k with h | ⟨j, h⟩
    · have hk := hl.opened_le k
      rw [h]
      omega
    · have hj := hm.opened_le j
      rw [h, List.countP_append, List.countP_append, hl.settled]
      omega
  attained := by
    rcases Nat.le_total b a with hle | hle
    · obtain ⟨k, hk⟩ := hl.attained
      refine ⟨min k l.length, ?_⟩
      rw [List.take_append_of_le_length (Nat.min_le_right _ _), ← List.take_eq_take_min, hk,
        Nat.max_eq_left hle]
    · obtain ⟨k, hk⟩ := hm.attained
      refine ⟨l.length + k, ?_⟩
      rw [List.take_length_add_append, List.countP_append, List.countP_append, hl.settled, hk,
        Nat.max_eq_right hle]
      omega
  settled := by rw [List.countP_append, List.countP_append, hl.settled, hm.settled]

/-- What neither opens nor closes may stand in front. -/
theorem behind {m : List α} {most : Nat} (h : Bracketed opens closes m most) (l : List α)
    (hopens : l.countP opens = 0) (hcloses : l.countP closes = 0) :
    Bracketed opens closes (l ++ m) most := by
  have happend := (of_none hopens hcloses).append h
  rwa [Nat.zero_max] at happend

/-- **Inside something** that is opened in front and closed behind, one more is open. -/
theorem around {l : List α} {most : Nat} (h : Bracketed opens closes l most) (first last : α)
    (hfirst : opens first = true ∧ closes first = false)
    (hlast : opens last = false ∧ closes last = true) :
    Bracketed opens closes (first :: (l ++ [last])) (most + 1) := by
  have hopens : ∀ m, (first :: m).countP opens = m.countP opens + 1 := fun m =>
    List.countP_cons_of_pos hfirst.1
  have hcloses : ∀ m, (first :: m).countP closes = m.countP closes := fun m =>
    List.countP_cons_of_neg (by simp [hfirst.2])
  have hall : (first :: (l ++ [last])).countP opens = (first :: (l ++ [last])).countP closes := by
    rw [hopens, hcloses, List.countP_append, List.countP_append, h.settled]
    simp [hlast]
  -- a moment is in front of all, inside, or behind all
  have hmoment : ∀ k, (first :: (l ++ [last])).take k = [] ∨
      (∃ j, (first :: (l ++ [last])).take k = first :: l.take j) ∨
      (first :: (l ++ [last])).take k = first :: (l ++ [last]) := by
    intro k
    cases k with
    | zero => exact Or.inl rfl
    | succ k =>
        rw [List.take_succ_cons]
        rcases take_append_cases l [last] k with hk | ⟨j, hj⟩
        · exact Or.inr (Or.inl ⟨k, by rw [hk]⟩)
        · rw [hj]
          cases j with
          | zero => exact Or.inr (Or.inl ⟨l.length, by simp⟩)
          | succ j => exact Or.inr (Or.inr (by simp))
  refine ⟨fun k => ?_, fun k => ?_, ?_, hall⟩
  · rcases hmoment k with hk | ⟨j, hk⟩ | hk
    · rw [hk]
      exact Nat.le_refl _
    · have hj := h.closed_le j
      rw [hk, hopens, hcloses]
      omega
    · rw [hk]
      exact Nat.le_of_eq hall.symm
  · rcases hmoment k with hk | ⟨j, hk⟩ | hk
    · rw [hk]
      exact Nat.zero_le _
    · have hj := h.opened_le j
      rw [hk, hopens, hcloses]
      omega
    · rw [hk, hall]
      omega
  · obtain ⟨k, hk⟩ := h.attained
    refine ⟨min k l.length + 1, ?_⟩
    rw [List.take_succ_cons, List.take_append_of_le_length (Nat.min_le_right _ _),
      ← List.take_eq_take_min, hopens, hcloses, hk]
    omega

end Bracketed

end QueryAudit
