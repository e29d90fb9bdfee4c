import Mathlib.Data.List.TakeWhile
import QueryAudit.Json.Basic
import QueryAudit.Json.Token
import QueryAudit.Text.Decimal

/-!
# QueryAudit.Proofs.Json.Numeral

Numerals of JSON texts.  What a scanner takes for a numeral are characters of numerals, and
the decimal digits of a natural number are taken for one, to the last.

* `passes_of_scanNumeral` — a numeral is passed over;
* `scanNumeral_repr` — the digits of a natural number are one numeral;
* `isFinite_writeWord` — a number of 32 bits is finite.
-/

namespace QueryAudit.Json

/-! ## characters of numerals -/

/-- A character of a numeral. -/
def isNumeralChar (c : Char) : Bool :=
  c.isDigit || c == '.' || c == 'e' || c == 'E' || c == '+' || c == '-'

/-- What is left of a text behind characters of a numeral. -/
def Passes (cs rest : List Char) : Prop :=
  ∃ used, cs = used ++ rest ∧ ∀ c ∈ used, isNumeralChar c = true

theorem Passes.refl (cs : List Char) : Passes cs cs := ⟨[], rfl, by simp⟩

theorem Passes.cons {c : Char} {cs rest : List Char} (hc : isNumeralChar c = true)
    (h : Passes cs rest) : Passes (c :: cs) rest := by
  obtain ⟨used, rfl, hused⟩ := h
  exact ⟨c :: used, rfl, List.forall_mem_cons.2 ⟨hc, hused⟩⟩

theorem Passes.trans {as bs cs : List Char} (h : Passes as bs) (h' : Passes bs cs) :
    Passes as cs := by
  obtain ⟨used, rfl, hused⟩ := h
  obtain ⟨used', rfl, hused'⟩ := h'
  exact ⟨used ++ used', (List.append_assoc used used' cs).symm,
    List.forall_mem_append.2 ⟨hused, hused'⟩⟩

theorem passes_digits (cs : List Char) : Passes cs (cs.dropWhile Char.isDigit) := by
  refine ⟨cs.takeWhile Char.isDigit, List.takeWhile_append_dropWhile.symm, fun c hc => ?_⟩
  have hdigit : c.isDigit = true := List.mem_takeWhile_imp hc
  simp [isNumeralChar, hdigit]

theorem drop_length_takeWhile (p : Char → Bool) (cs : List Char) :
    cs.drop (cs.takeWhile p).length = cs.dropWhile p :=
  calc cs.drop (cs.takeWhile p).length
      = (cs.takeWhile p ++ cs.dropWhile p).drop (cs.takeWhile p).length := by
        rw [List.takeWhile_append_dropWhile]
    _ = cs.dropWhile p := List.drop_left

theorem passes_wholeDigits (cs : List Char) :
    Passes cs (cs.drop (wholeDigits cs).length) := by
  cases cs with
  | nil => exact .refl []
  | cons c cs =>
      by_cases hzero : c = '0'
      · rw [wholeDigits, if_pos hzero]
        exact .cons (hzero ▸ rfl) (.refl cs)
      · rw [wholeDigits, if_neg hzero, drop_length_takeWhile]
        exact passes_digits (c :: cs)

theorem passes_of_scanFraction {cs fraction rest : List Char}
    (h : scanFraction cs = some (fraction, rest)) : Passes cs rest := by
  unfold scanFraction at h
  split at h
  · rename_i tail
    dsimp only at h
    split at h
    · contradiction
    · cases h
      exact .cons rfl (passes_digits tail)
  · cases h
    exact .refl cs

theorem passes_of_scanPower {mark cs power rest : List Char}
    (h : scanPower mark cs = some (power, rest)) : Passes cs rest := by
  simp only [scanPower] at h
  split at h
  · contradiction
  · cases h
    exact passes_digits cs

theorem passes_of_scanExponent {cs exponent rest : List Char}
    (h : scanExponent cs = some (exponent, rest)) : Passes cs rest := by
  cases cs with
  | nil =>
      cases h
      exact .refl []
  | cons e tail =>
      simp only [scanExponent] at h
      split at h
      · rename_i he
        have hmark : isNumeralChar e = true := by
          rcases Bool.or_eq_true_iff.1 he with he | he <;> (rw [of_decide_eq_true he]; rfl)
        cases tail with
        | nil => contradiction
        | cons sign digits =>
            dsimp only at h
            split at h
            · rename_i hsign
              have hsign : isNumeralChar sign = true := by
                rcases Bool.or_eq_true_iff.1 hsign with hs | hs <;> (rw [of_decide_eq_true hs]; rfl)
              exact .cons hmark (.cons hsign (passes_of_scanPower h))
            · exact .cons hmark (passes_of_scanPower h)
      · cases h
        exact .refl _

theorem passes_of_scanNumeral {sign cs rest : List Char} {numeral : String}
    (h : scanNumeral sign cs = some (numeral, rest)) : Passes cs rest := by
  unfold scanNumeral at h
  split at h
  · contradiction
  · split at h
    · contradiction
    · rename_i hfraction
      split at h
      · contradiction
      · rename_i hexponent
        cases h
        exact (passes_wholeDigits cs).trans
          ((passes_of_scanFraction hfraction).trans (passes_of_scanExponent hexponent))

/-! ## natural numbers -/

/-- Digits of a number start with a zero only if they are that zero. -/
theorem eq_nil_of_toDigits_eq_zero_cons {n : Nat} {digits : List Char}
    (h : Nat.toDigits 10 n = '0' :: digits) : digits = [] := by
  induction n using Nat.strongRecOn generalizing digits with
  | ind n ih =>
      rw [Nat.toDigits_eq_if (by omega)] at h
      split at h
      · exact (List.cons.inj h).2.symm
      · rename_i hn
        cases hfront : Nat.toDigits 10 (n / 10) with
        | nil => exact absurd hfront Nat.toDigits_ne_nil
        | cons d ds =>
            rw [hfront, List.cons_append, List.cons.injEq] at h
            have hds := ih (n / 10) (by omega) (h.1 ▸ hfront)
            -- then nothing but a zero stands in front of the last digit
            have hvalue : Nat.ofDigitChars 10 (Nat.toDigits 10 (n / 10)) 0 = n / 10 :=
              Nat.ofDigitChars_ten_toDigits
            rw [hfront, hds, h.1] at hvalue
            have hzero : Nat.ofDigitChars 10 ['0'] 0 = 0 := rfl
            omega

theorem isDigit_of_mem_toDigits {n : Nat} {c : Char} (h : c ∈ Nat.toDigits 10 n) :
    c.isDigit = true :=
  Nat.isDigit_of_mem_toDigits (by decide) (by decide) h

/-- A numeral is over: the text is over or something else comes. -/
def EndsNumeral (cs : List Char) : Prop := ∀ c ∈ cs.head?, isNumeralChar c = false

theorem endsNumeral_nil : EndsNumeral [] := by simp [EndsNumeral]

theorem EndsNumeral.ne {c d : Char} {cs : List Char} (h : EndsNumeral (c :: cs))
    (hd : isNumeralChar d = true) : c ≠ d := by
  rintro rfl
  rw [h c rfl] at hd
  contradiction

theorem EndsNumeral.not_isDigit {c : Char} {cs : List Char} (h : EndsNumeral (c :: cs)) :
    c.isDigit = false := by
  cases hdigit : c.isDigit with
  | false => rfl
  | true => exact absurd rfl (h.ne (d := c) (by simp [isNumeralChar, hdigit]))

theorem EndsNumeral.takeWhile_isDigit {cs : List Char} (h : EndsNumeral cs) :
    cs.takeWhile Char.isDigit = [] := by
  cases cs with
  | nil => rfl
  | cons c cs => simp [h.not_isDigit]

theorem EndsNumeral.scanFraction_eq {cs : List Char} (h : EndsNumeral cs) :
    scanFraction cs = some ([], cs) := by
  unfold scanFraction
  split
  · exact absurd rfl (h.ne (d := '.') rfl)
  · rfl

theorem EndsNumeral.scanExponent_eq {cs : List Char} (h : EndsNumeral cs) :
    scanExponent cs = some ([], cs) := by
  cases cs with
  | nil => rfl
  | cons c cs => simp [scanExponent, h.ne (d := 'e') rfl, h.ne (d := 'E') rfl]

theorem wholeDigits_toDigits (n : Nat) {cs : List Char} (h : EndsNumeral cs) :
    wholeDigits (Nat.toDigits 10 n ++ cs) = Nat.toDigits 10 n := by
  cases hdigits : Nat.toDigits 10 n with
  | nil => exact absurd hdigits Nat.toDigits_ne_nil
  | cons d ds =>
      rw [List.cons_append, wholeDigits]
      split
      · rename_i hzero
        subst hzero
        rw [eq_nil_of_toDigits_eq_zero_cons hdigits]
      · rw [← List.cons_append, ← hdigits, List.takeWhile_append_of_pos
          fun c hc => isDigit_of_mem_toDigits hc, h.takeWhile_isDigit, List.append_nil]

/-- **The digits of a number** are one numeral. -/
theorem scanNumeral_repr (n : Nat) {cs : List Char} (h : EndsNumeral cs) :
    scanNumeral [] (Nat.toDigits 10 n ++ cs) = some (Nat.repr n, cs) := by
  rw [scanNumeral, wholeDigits_toDigits n h, List.drop_left, h.scanFraction_eq]
  simp [h.scanExponent_eq, Nat.toDigits_ne_nil, Nat.repr_eq_ofList_toDigits]

/-! ## the range of numbers -/

theorem le_ofDigitChars (digits : List Char) (significand : Nat) :
    significand ≤ Nat.ofDigitChars 10 digits significand := by
  induction digits generalizing significand with
  | nil => exact Nat.le_refl significand
  | cons d ds ih =>
      rw [Nat.ofDigitChars_cons]
      exact Nat.le_trans (by omega) (ih _)

/-- Digits are put behind a significand as long as the value fits. -/
theorem append_eq_of_lt {significand : Nat} {digits : List Char}
    (h : Nat.ofDigitChars 10 digits significand < 1 <<< 64) :
    Scientific.append significand digits = (Nat.ofDigitChars 10 digits significand, []) := by
  induction digits generalizing significand with
  | nil => rfl
  | cons d ds ih =>
      rw [Nat.ofDigitChars_cons, Nat.mul_comm] at h
      have hfits : significand * 10 + (d.toNat - '0'.toNat) < 1 <<< 64 :=
        Nat.lt_of_le_of_lt (le_ofDigitChars ds _) h
      rw [Scientific.append, Nat.ofDigitChars_cons, Nat.mul_comm 10, if_pos hfits, ih h]

/-- The digits of a number that fits are its significand. -/
theorem ofNumeral_toDigits {n : Nat} (h : n < 1 <<< 64) :
    Scientific.ofNumeral (Nat.toDigits 10 n) = ⟨n, 0⟩ := by
  have hother : ∀ c ∈ Nat.toDigits 10 n, ∀ d, d.isDigit = false → (c == d) = false := by
    intro c hc d hd
    refine beq_eq_false_iff_ne.2 ?_
    rintro rfl
    rw [isDigit_of_mem_toDigits hc] at hd
    contradiction
  have hsign : (Nat.toDigits 10 n).dropWhile (· == '-') = Nat.toDigits 10 n := by
    cases hdigits : Nat.toDigits 10 n with
    | nil => rfl
    | cons d ds =>
        rw [hdigits] at hother
        exact List.dropWhile_cons_of_neg (by simp [hother d List.mem_cons_self '-' rfl])
  have hmantissa : (Nat.toDigits 10 n).takeWhile (fun c => c != 'e' && c != 'E')
      = Nat.toDigits 10 n :=
    List.takeWhile_eq_self_iff.2 fun c hc => by simp [bne, hother c hc]
  have hwhole : (Nat.toDigits 10 n).takeWhile (· != '.') = Nat.toDigits 10 n :=
    List.takeWhile_eq_self_iff.2 fun c hc => by simp [bne, hother c hc]
  have hvalue : Nat.ofDigitChars 10 (Nat.toDigits 10 n) 0 = n := Nat.ofDigitChars_ten_toDigits
  have happend : Scientific.append 0 (Nat.toDigits 10 n) = (n, []) := by
    rw [append_eq_of_lt (hvalue.symm ▸ h), hvalue]
  simp only [Scientific.ofNumeral, hsign, hmantissa, hwhole, happend, List.drop_length,
    List.drop_nil]
  rfl

/-- **A word** is finite. -/
theorem isFinite_writeWord (w : UInt32) : isFinite (writeWord w) = true := by
  have hw : w.toNat < 2 ^ 32 := w.toNat_lt
  rw [isFinite, toList_writeWord, ofNumeral_toDigits (Nat.lt_trans hw (by decide))]
  by_cases hzero : w.toNat = 0
  · simp [hzero]
  · have hlog : w.toNat.log2 < 53 :=
      (Nat.log2_lt hzero).2 (Nat.lt_trans hw (by decide))
    have hone : Double.round (Nat.pow 10 0) = 1 := by decide
    have hrange : w.toNat < Double.overflow := Nat.lt_trans hw (by decide)
    have hproduct : Double.round w.toNat * Double.round (Nat.pow 10 0) < Double.overflow := by
      rw [Double.round_eq_self hlog, hone, Nat.mul_one]
      exact hrange
    exact Bool.or_eq_true_iff.2 (.inr (Bool.and_eq_true_iff.2 ⟨rfl, decide_eq_true hproduct⟩))

end QueryAudit.Json
