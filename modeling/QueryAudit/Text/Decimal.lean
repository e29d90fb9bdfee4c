/-!
# QueryAudit.Text.Decimal

Decimal numerals of 32-bit words.  A word is written with the fewest digits;
it is read with any number of leading zeros and one optional plus sign.

* `readWord_writeWord` — what is written reads back.
-/

namespace QueryAudit

/-- The value of a numeral, or `none` when the text is no numeral or its value
needs more than 32 bits. -/
def readWord (cs : List Char) : Option UInt32 :=
  let digits := match cs with
    | '+' :: rest => rest
    | _ => cs
  if !digits.isEmpty && digits.all Char.isDigit then
    let value := Nat.ofDigitChars 10 digits 0
    if value < UInt32.size then some (UInt32.ofNat value) else none
  else none

/-- The numeral of a word, without leading zeros. -/
def writeWord (w : UInt32) : String :=
  Nat.repr w.toNat

theorem toList_writeWord (w : UInt32) : (writeWord w).toList = Nat.toDigits 10 w.toNat := by
  simp [writeWord, Nat.repr_eq_ofList_toDigits]

/-- A numeral consists of digits. -/
theorem isDigit_of_mem_writeWord {w : UInt32} {c : Char} (h : c ∈ (writeWord w).toList) :
    c.isDigit = true :=
  Nat.isDigit_of_mem_toDigits (by decide) (by decide) (toList_writeWord w ▸ h)

theorem writeWord_ne_nil (w : UInt32) : (writeWord w).toList ≠ [] := by
  simp [toList_writeWord]

/-- A written word reads back. -/
theorem readWord_writeWord (w : UInt32) : readWord (writeWord w).toList = some w := by
  have hne := writeWord_ne_nil w
  have hd : (writeWord w).toList.all Char.isDigit = true :=
    List.all_eq_true.2 fun c hc => isDigit_of_mem_writeWord hc
  have hplus : (match (writeWord w).toList with
      | '+' :: rest => rest
      | _ => (writeWord w).toList) = (writeWord w).toList := by
    split
    · rename_i rest h
      simp [h] at hd
    · rfl
  have hv : Nat.ofDigitChars 10 (writeWord w).toList 0 = w.toNat := by
    rw [toList_writeWord, Nat.ofDigitChars_ten_toDigits]
  simp only [readWord, hplus, hd, hv, List.isEmpty_eq_false_iff.2 hne, Bool.not_false,
    Bool.and_self, if_true, UInt32.toNat_lt_size w, UInt32.ofNat_toNat]

end QueryAudit
