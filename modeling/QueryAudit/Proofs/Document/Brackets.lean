import QueryAudit.Proofs.Json.Open

/-!
# QueryAudit.Proofs.Document.Brackets

The count of brackets in front of the reader.  A text is counted byte by byte, and no text that
the reader goes through has more open at any place than is counted.

* `byteDepth_eq_bracketDepth` — counting bytes is counting characters;
* `openAt_le_bracketDepthFrom` — what is open at a place is counted in front of it;
* `bracketDepth_measures` — what the count says about texts of values and about all others.
-/

namespace QueryAudit.Document

open Json

/-! ## bytes -/

/-- A count of brackets that goes over bytes. -/
structure ByteCount where
  depth : Nat
  deepest : Nat
  inString : Bool
  escaped : Bool
deriving DecidableEq, Repr

/-- The count behind one more byte. -/
def ByteCount.step (count : ByteCount) (b : UInt8) : ByteCount :=
  if count.inString then
    if count.escaped then { count with escaped := false }
    else if b = '\\'.toUInt8 then { count with escaped := true }
    else if b = '"'.toUInt8 then { count with inString := false }
    else count
  else if b = '"'.toUInt8 then { count with inString := true }
  else if b = '\x7b'.toUInt8 || b = '['.toUInt8 then
    { count with depth := count.depth + 1, deepest := max count.deepest (count.depth + 1) }
  else if b = '\x7d'.toUInt8 || b = ']'.toUInt8 then { count with depth := count.depth - 1 }
  else count

/-- The largest number of open brackets in the bytes of a JSON text, those in strings apart. -/
def byteDepth (content : ByteArray) : Nat :=
  (content.data.toList.foldl ByteCount.step ⟨0, 0, false, false⟩).deepest

/-- The count that goes over bytes, at a place. -/
def Place.byteCount (depth deepest : Nat) : Place → ByteCount
  | .outside => ⟨depth, deepest, false, false⟩
  | .inString => ⟨depth, deepest, true, false⟩
  | .escaped => ⟨depth, deepest, true, true⟩

theorem step_inString (b : UInt8) (depth deepest : Nat) :
    (Place.inString.byteCount depth deepest).step b
      = if b = '\\'.toUInt8 then Place.escaped.byteCount depth deepest
        else if b = '"'.toUInt8 then Place.outside.byteCount depth deepest
        else Place.inString.byteCount depth deepest := rfl

theorem step_outside (b : UInt8) (depth deepest : Nat) :
    (Place.outside.byteCount depth deepest).step b
      = if b = '"'.toUInt8 then Place.inString.byteCount depth deepest
        else if b = '\x7b'.toUInt8 || b = '['.toUInt8 then
          Place.outside.byteCount (depth + 1) (max deepest (depth + 1))
        else if b = '\x7d'.toUInt8 || b = ']'.toUInt8 then
          Place.outside.byteCount (depth - 1) deepest
        else Place.outside.byteCount depth deepest := rfl

/-- The place behind a character that is neither a quote nor a backslash. -/
def Place.next : Place → Place
  | .escaped => .inString
  | place => place

theorem Place.next_next (place : Place) : place.next.next = place.next := by
  cases place <;> rfl

theorem toNat_toUInt8 {c : Char} (h : c.toNat < 128) : c.toUInt8.toNat = c.toNat := by
  rw [Char.toUInt8, UInt32.toNat_toUInt8]
  exact Nat.mod_eq_of_lt (Nat.lt_trans h (by decide))

/-- A character of one byte is known from it. -/
theorem toUInt8_eq_iff {c d : Char} (hc : c.toNat < 128) (hd : d.toNat < 128) :
    c.toUInt8 = d.toUInt8 ↔ c = d := by
  rw [← UInt8.toNat_inj, toNat_toUInt8 hc, toNat_toUInt8 hd]
  exact Char.toNat_inj

/-- A byte of a character of more than one passes. -/
theorem step_of_high {b : UInt8} (h : 128 ≤ b.toNat) (place : Place) (depth deepest : Nat) :
    (place.byteCount depth deepest).step b = place.next.byteCount depth deepest := by
  have hne : ∀ d : Char, d.toNat < 128 → b ≠ d.toUInt8 := by
    rintro d hd rfl
    rw [toNat_toUInt8 hd] at h
    omega
  cases place <;>
    simp [ByteCount.step, Place.byteCount, Place.next, hne '"' (by decide), hne '\\' (by decide),
      hne '\x7b' (by decide), hne '[' (by decide), hne '\x7d' (by decide), hne ']' (by decide)]

theorem foldl_step_of_high {bytes : List UInt8} (h : ∀ b ∈ bytes, 128 ≤ b.toNat)
    (hbytes : bytes ≠ []) (place : Place) (depth deepest : Nat) :
    bytes.foldl ByteCount.step (place.byteCount depth deepest)
      = place.next.byteCount depth deepest := by
  induction bytes generalizing place with
  | nil => exact absurd rfl hbytes
  | cons b bytes ih =>
      rw [List.foldl_cons, step_of_high (h b List.mem_cons_self)]
      by_cases hrest : bytes = []
      · rw [hrest, List.foldl_nil]
      · rw [ih (fun d hd => h d (List.mem_cons_of_mem b hd)) hrest, Place.next_next]

/-- The byte of a character of one. -/
theorem utf8EncodeChar_of_low {c : Char} (h : c.toNat < 128) :
    String.utf8EncodeChar c = [c.toUInt8] := by
  have hsize : c.utf8Size = 1 :=
    Char.utf8Size_eq_one_iff.2 (UInt32.le_iff_toNat_le.2 (Nat.le_of_lt_succ h))
  exact String.utf8EncodeChar_eq_singleton hsize

/-- The bytes of a character of more than one. -/
theorem high_of_mem_utf8EncodeChar {c : Char} (h : 128 ≤ c.toNat) :
    ∀ b ∈ String.utf8EncodeChar c, 128 ≤ b.toNat := by
  have hval : c.val.toNat = c.toNat := rfl
  unfold String.utf8EncodeChar
  simp only [hval]
  split_ifs with hone
  · omega
  all_goals
    simp
    omega

theorem bracketDepthFrom_cons_of_high {c : Char} (h : 128 ≤ c.toNat) (place : Place)
    (depth deepest : Nat) (cs : List Char) :
    bracketDepthFrom place depth deepest (c :: cs)
      = bracketDepthFrom place.next depth deepest cs := by
  have hne : ∀ d : Char, d.toNat < 128 → c ≠ d := by
    rintro d hd rfl
    omega
  cases place <;>
    simp [bracketDepthFrom, Place.next, hne '"' (by decide), hne '\\' (by decide),
      hne '\x7b' (by decide), hne '[' (by decide), hne '\x7d' (by decide), hne ']' (by decide)]

theorem deepest_foldl_step (cs : List Char) (place : Place) (depth deepest : Nat) :
    ((cs.flatMap String.utf8EncodeChar).foldl ByteCount.step
        (place.byteCount depth deepest)).deepest
      = bracketDepthFrom place depth deepest cs := by
  induction cs generalizing place depth deepest with
  | nil => cases place <;> rfl
  | cons c cs ih =>
      rw [List.flatMap_cons, List.foldl_append]
      by_cases hc : c.toNat < 128
      · have hbyte : ∀ d : Char, d.toNat < 128 → (c.toUInt8 = d.toUInt8 ↔ c = d) :=
          fun d hd => toUInt8_eq_iff hc hd
        rw [utf8EncodeChar_of_low hc, List.foldl_cons, List.foldl_nil]
        cases place with
        | escaped => exact ih .inString depth deepest
        | inString =>
            simp only [step_inString, bracketDepthFrom, hbyte '\\' (by decide),
              hbyte '"' (by decide)]
            split_ifs
            · exact ih .escaped depth deepest
            · exact ih .outside depth deepest
            · exact ih .inString depth deepest
        | outside =>
            simp only [step_outside, bracketDepthFrom, hbyte '"' (by decide),
              hbyte '\x7b' (by decide), hbyte '[' (by decide), hbyte '\x7d' (by decide),
              hbyte ']' (by decide)]
            split_ifs
            · exact ih .inString depth deepest
            · exact ih .outside (depth + 1) (max deepest (depth + 1))
            · exact ih .outside (depth - 1) deepest
            · exact ih .outside depth deepest
      · have hhigh : 128 ≤ c.toNat := Nat.not_lt.1 hc
        rw [foldl_step_of_high (high_of_mem_utf8EncodeChar hhigh) String.utf8EncodeChar_ne_nil,
          ih, bracketDepthFrom_cons_of_high hhigh]

/-- **Counting bytes** is counting characters. -/
theorem byteDepth_eq_bracketDepth (s : String) : byteDepth s.toUTF8 = bracketDepth s := by
  have hbytes : s.toUTF8.data.toList = s.toList.flatMap String.utf8EncodeChar := by
    rw [String.toUTF8_eq_toByteArray, ← String.utf8Encode_toList, List.utf8Encode,
      List.toList_data_toByteArray]
  rw [byteDepth, hbytes]
  exact deepest_foldl_step s.toList .outside 0 0

/-! ## prefixes -/

/-- What is counted in front of a place is counted in all. -/
theorem bracketDepthFrom_le_append (place : Place) (depth deepest : Nat) (before after : List Char) :
    bracketDepthFrom place depth deepest before
      ≤ bracketDepthFrom place depth deepest (before ++ after) := by
  fun_induction bracketDepthFrom place depth deepest before with
  | case1 place depth deepest => exact le_bracketDepthFrom place depth deepest after
  | _ => simp_all [bracketDepthFrom]

/-- What some tokens open and do not close is counted. -/
theorem le_depthFrom (tokens : List Token) {depth deepest : Nat} (h : depth ≤ deepest) :
    depth + tokens.countP Token.isOpening
      ≤ tokens.countP Token.isClosing + depthFrom depth deepest tokens := by
  induction tokens generalizing depth deepest with
  | nil => simpa [depthFrom] using h
  | cons token tokens ih =>
      cases token with
      | openArray | openObject =>
          have hrest := ih (Nat.le_max_right deepest (depth + 1))
          simp only [List.countP_cons, Token.isOpening, Token.isClosing, depthFrom, if_true,
            Bool.false_eq_true, if_false]
          omega
      | closeArray | closeObject =>
          have hrest := @ih (depth - 1) deepest (by omega)
          simp only [List.countP_cons, Token.isOpening, Token.isClosing, depthFrom, if_true,
            Bool.false_eq_true, if_false]
          omega
      | colon | comma | null | bool | number | string => exact ih h

/-- The tokens in front of a place are counted with its characters. -/
theorem depthFrom_tokensBefore_le (left : Nat) (cs : List Char) (depth deepest : Nat) :
    depthFrom depth deepest (tokensBefore left cs)
      ≤ bracketDepthFrom .outside depth deepest (cs.take (cs.length - left)) := by
  fun_induction tokensBefore left cs generalizing depth deepest with
  | case1 => exact le_bracketDepthFrom .outside depth deepest _
  | case2 | case4 => exact le_bracketDepthFrom .outside depth deepest _
  | case3 c cs token rest hscan hleft ih =>
      obtain ⟨used, hcs, hused⟩ := counts_scanToken hscan
      obtain ⟨depth', deepest', hchars, htoken⟩ := hused depth deepest
      have htake : (used ++ rest).take ((used ++ rest).length - left)
          = used ++ rest.take (rest.length - left) := by
        rw [List.length_append, Nat.add_sub_assoc hleft, List.take_length_add_append]
      rw [hcs, htake, hchars, htoken]
      exact ih depth' deepest'

/-- **What is open at a place** is counted in front of it. -/
theorem openAt_le_bracketDepthFrom (before after : List Char) :
    openAt before after ≤ bracketDepthFrom .outside 0 0 before := by
  have hopened := le_depthFrom (tokensBefore after.length (before ++ after)) (Nat.le_refl 0)
  have hcounted := depthFrom_tokensBefore_le after.length (before ++ after) 0 0
  have htake : (before ++ after).take ((before ++ after).length - after.length) = before := by
    simp
  rw [htake] at hcounted
  rw [openAt]
  omega

/-- What is open at a place of some text that begins as `s` does is counted in `s`. -/
theorem openAt_le_bracketDepth {s : String} {before : List Char} (h : before <+: s.toList)
    (after : List Char) : openAt before after ≤ bracketDepth s := by
  obtain ⟨behind, hbehind⟩ := h
  calc openAt before after
      ≤ bracketDepthFrom .outside 0 0 before := openAt_le_bracketDepthFrom before after
    _ ≤ bracketDepthFrom .outside 0 0 (before ++ behind) :=
        bracketDepthFrom_le_append .outside 0 0 before behind
    _ = bracketDepth s := by rw [hbehind, bracketDepth]

/-- **What the count of brackets measures.**  Bytes are counted as characters are.  In the text of
a value the count is how deeply the value nests, and the most that is open at any place.  Where a
text can be continued to that of a value, the reader keeps open what is open there, and this is
no more than is counted in the whole text; nor does the reader of the text itself ever keep more
open, at whatever place it stops. -/
theorem bracketDepth_measures (s : String) :
    byteDepth s.toUTF8 = bracketDepth s ∧
    (∀ v, Json.read s = some v →
      bracketDepth s = v.nesting ∧
      IsGreatest {opened | ∃ before after, before ++ after = s.toList ∧
        openAt before after = opened} (bracketDepth s)) ∧
    (∀ before after v, before <+: s.toList →
      Json.read (String.ofList (before ++ after)) = some v →
      (∃ opened expected, ReadsTo (tokensBefore after.length (before ++ after)) opened expected ∧
        openCount opened expected = openAt before after) ∧
      openAt before after ≤ bracketDepth s) ∧
    (∀ before after opened expected, before ++ after = s.toList →
      ReadsTo (tokensBefore after.length (before ++ after)) opened expected →
      openCount opened expected ≤ bracketDepth s) := by
  refine ⟨byteDepth_eq_bracketDepth s, fun v hread => ?_, fun before after v hbefore hread => ?_,
    fun before after opened expected htext hreads => ?_⟩
  · rw [bracketDepth_of_read hread]
    exact ⟨rfl, isGreatest_openAt hread⟩
  · obtain ⟨opened, expected, hreads⟩ := exists_readsTo hread
    exact ⟨⟨opened, expected, hreads, openCount_eq_openAt hreads⟩,
      openAt_le_bracketDepth hbefore after⟩
  · rw [openCount_eq_openAt hreads]
    exact openAt_le_bracketDepth ⟨after, htext⟩ after

end QueryAudit.Document
