import QueryAudit.Proofs.Notation.Lexing

/-!
# QueryAudit.Proofs.Notation.Layout

How a text is laid out.  A text consists of chunks, each of them a lexeme as it is
written behind a gap, and of an ending.  Gaps hold white space and comments; a
lexeme ends before what follows it if it does not run on there.

* `Spells` — the ways to write a lexeme;
* `Laid` — the chunks and the ending of a text;
* `spells_of_scan`, `exists_scan_of_spells` — a lexeme is found where it is written.
-/

namespace QueryAudit.Notation

/-! ## numbers and positions -/

/-- A numeral of a 32-bit word: digits, and a plus sign in front of them or not. -/
def IsWord (cs : List Char) (w : UInt32) : Prop :=
  ∃ digits, (cs = digits ∨ cs = '+' :: digits) ∧ digits ≠ [] ∧
    (∀ c ∈ digits, c.isDigit = true) ∧ Nat.ofDigitChars 10 digits 0 = w.toNat

/-- A position: a line, or a line and a column.  Without a column it is column 0. -/
inductive IsPosition : List Char → Position → Prop
  | line {cs : List Char} {line : UInt32} : IsWord cs line → IsPosition cs ⟨line, 0⟩
  | column {cs cs' : List Char} {line column : UInt32} : IsWord cs line → IsWord cs' column →
      IsPosition (cs ++ ':' :: cs') ⟨line, column⟩

/-- A numeral without the plus sign in front of it. -/
def unsigned (cs : List Char) : List Char :=
  match cs with
  | '+' :: rest => rest
  | _ => cs

theorem eq_or_eq_of_unsigned (cs : List Char) : cs = unsigned cs ∨ cs = '+' :: unsigned cs := by
  unfold unsigned
  split
  · exact .inr rfl
  · exact .inl rfl

theorem unsigned_of_digits {cs : List Char} (h : ∀ c ∈ cs, c.isDigit = true) :
    unsigned cs = cs := by
  unfold unsigned
  split
  · have hplus := h '+' List.mem_cons_self
    contradiction
  · rfl

theorem readWord_eq_some_iff {cs : List Char} {w : UInt32} :
    readWord cs = some w ↔ IsWord cs w := by
  have hread : readWord cs = if !(unsigned cs).isEmpty && (unsigned cs).all Char.isDigit then
      if Nat.ofDigitChars 10 (unsigned cs) 0 < UInt32.size then
        some (UInt32.ofNat (Nat.ofDigitChars 10 (unsigned cs) 0))
      else none
    else none := rfl
  constructor
  · intro h
    rw [hread] at h
    split at h
    · next hall =>
      rw [Bool.and_eq_true, List.all_eq_true] at hall
      split at h
      · next hlt =>
        cases h
        refine ⟨unsigned cs, eq_or_eq_of_unsigned cs, by simpa using hall.1, hall.2, ?_⟩
        rw [UInt32.toNat_ofNat_of_lt' hlt]
      · contradiction
    · contradiction
  · rintro ⟨digits, hcs, hne, hall, hvalue⟩
    have hdigits : unsigned cs = digits := by
      rcases hcs with rfl | rfl
      · exact unsigned_of_digits hall
      · rfl
    simp only [hread, hdigits, hvalue, List.isEmpty_eq_false_iff.2 hne, List.all_eq_true.2 hall,
      Bool.not_false, Bool.and_self, if_true, UInt32.toNat_lt_size, UInt32.ofNat_toNat]

theorem not_mem_of_isWord {cs : List Char} {w : UInt32} (h : IsWord cs w) : ':' ∉ cs := by
  obtain ⟨digits, hcs, -, hdigits, -⟩ := h
  intro hmem
  have hcolon : ':' ∈ digits := by
    rcases hcs with rfl | rfl
    · exact hmem
    · simpa using hmem
  have := hdigits ':' hcolon
  contradiction

theorem readPosition_eq_some_iff {cs : List Char} {p : Position} :
    readPosition cs = some p ↔ IsPosition cs p := by
  constructor
  · intro h
    unfold readPosition at h
    split at h
    · obtain ⟨line, hline, rfl⟩ := Option.map_eq_some_iff.1 h
      exact .line (readWord_eq_some_iff.1 hline)
    · next before after hcut =>
      rw [eq_append_of_cut hcut]
      split at h
      · next hline hcolumn =>
        cases h
        exact .column (readWord_eq_some_iff.1 hline) (readWord_eq_some_iff.1 hcolumn)
      · contradiction
  · rintro (hline | ⟨hline, hcolumn⟩)
    · rw [readPosition, cut_eq_none_iff.2 (not_mem_of_isWord hline)]
      simp only [readWord_eq_some_iff.2 hline, Option.map_some]
    · rw [readPosition, cut_append_cons (not_mem_of_isWord hline)]
      simp only [readWord_eq_some_iff.2 hline, readWord_eq_some_iff.2 hcolumn]

/-! ## gaps -/

/-- White space and comments, each comment with the end of its line. -/
inductive Gap : List Char → Prop
  | nil : Gap []
  | blank {c : Char} {cs : List Char} : isBlank c = true → Gap cs → Gap (c :: cs)
  | comment {cs cs' : List Char} : '\n' ∉ cs → Gap cs' → Gap (';' :: (cs ++ '\n' :: cs'))

theorem Gap.append {cs cs' : List Char} (h : Gap cs) (h' : Gap cs') : Gap (cs ++ cs') := by
  induction h with
  | nil => exact h'
  | blank hc _ ih => exact .blank hc ih
  | comment hcs _ ih => simpa using Gap.comment hcs ih

/-- What stands behind the last lexeme: a gap, and possibly a last comment that is
not ended. -/
inductive Ending : List Char → Prop
  | gap {cs : List Char} : Gap cs → Ending cs
  | comment {cs cs' : List Char} : Gap cs → '\n' ∉ cs' → Ending (cs ++ ';' :: cs')

theorem Ending.append {cs cs' : List Char} (h' : Ending cs') (h : Gap cs) : Ending (cs ++ cs') := by
  cases h' with
  | gap hcs' => exact .gap (h.append hcs')
  | comment hcs' hline =>
      rw [← List.append_assoc]
      exact .comment (h.append hcs') hline

/-! ## lexemes as they are written -/

/-- A text between its quotes, as it is written and as it is meant. -/
inductive Escaped : List Char → List Char → Prop
  | nil : Escaped [] []
  | plain {c : Char} {cs text : List Char} : c ≠ '"' → c ≠ '\\' → Escaped cs text →
      Escaped (c :: cs) (c :: text)
  | newline {cs text : List Char} : Escaped cs text → Escaped ('\\' :: 'n' :: cs) ('\n' :: text)
  | tab {cs text : List Char} : Escaped cs text → Escaped ('\\' :: 't' :: cs) ('\t' :: text)
  | other {c : Char} {cs text : List Char} : c ≠ 'n' → c ≠ 't' → Escaped cs text →
      Escaped ('\\' :: c :: cs) (c :: text)

/-- The ways to write a lexeme. -/
inductive Spells : List Char → Lexeme → Prop
  | opening : Spells ['('] .opening
  | closing : Spells [')'] .closing
  | equals : Spells ['='] .equals
  | atom {name : String} : isName name = true → Spells name.toList (.atom name)
  | text {cs text : List Char} : Escaped cs text →
      Spells ('"' :: (cs ++ ['"'])) (.text (String.ofList text) none)
  | placed {cs text spec : List Char} {p : Position} : Escaped cs text →
      (∀ c ∈ spec, isPositionChar c = true) → IsPosition spec p →
      Spells ('"' :: (cs ++ '"' :: '@' :: spec)) (.text (String.ofList text) (some p))

theorem isProper_of_spells {word : List Char} {lexeme : Lexeme} (h : Spells word lexeme) :
    lexeme.isProper = true := by
  cases h with
  | atom hname => exact hname
  | _ => rfl

/-- A lexeme does not run on into what follows it. -/
def Lexeme.EndsBefore : Lexeme → List Char → Prop
  | .atom _, rest => Breaks rest
  | .text _ none, rest => rest.head? ≠ some '@'
  | .text _ (some _), rest => ∀ c ∈ rest.head?, isPositionChar c = false
  | _, _ => True

/-- A lexeme ends before a gap. -/
theorem Lexeme.endsBefore_gap (l : Lexeme) {gap : List Char} (h : Gap gap) (hne : gap ≠ [])
    (rest : List Char) : l.EndsBefore (gap ++ rest) := by
  obtain ⟨c, cs, rfl, hc⟩ : ∃ c cs, gap = c :: cs ∧ isDelimiter c = true := by
    cases h with
    | nil => contradiction
    | blank hc _ => exact ⟨_, _, rfl, by simp [isDelimiter, hc]⟩
    | comment _ _ => exact ⟨_, _, rfl, by decide⟩
  cases l with
  | atom name => simp [EndsBefore, Breaks, hc]
  | text text position =>
      cases position with
      | none =>
          intro hat
          cases hat
          contradiction
      | some p =>
          intro d hd
          cases hd
          cases hposition : isPositionChar c with
          | false => rfl
          | true =>
              rw [isDelimiter_of_isPositionChar hposition] at hc
              contradiction
  | opening | closing | equals => trivial

/-! ## laid out texts -/

/-- A lexeme as it is written, and the gap in front of it. -/
structure Chunk where
  gap : List Char
  word : List Char
  lexeme : Lexeme

/-- The text of chunks and an ending. -/
def textOf (ending : List Char) : List Chunk → List Char
  | [] => ending
  | c :: chunks => c.gap ++ (c.word ++ textOf ending chunks)

/-- Chunks and an ending that make up a text. -/
inductive Laid (ending : List Char) : List Chunk → Prop
  | nil : Ending ending → Laid ending []
  | cons {c : Chunk} {chunks : List Chunk} : Gap c.gap → Spells c.word c.lexeme →
      c.lexeme.EndsBefore (textOf ending chunks) → Laid ending chunks → Laid ending (c :: chunks)

theorem Spells.ne_nil {word : List Char} {lexeme : Lexeme} (h : Spells word lexeme) :
    word ≠ [] := by
  cases h with
  | atom hname =>
      have hne := (Bool.and_eq_true_iff.1 hname).1
      simpa using hne
  | _ => simp

/-- Only the first character behind a lexeme matters to it. -/
theorem Lexeme.endsBefore_congr (l : Lexeme) {rest rest' : List Char}
    (h : rest.head? = rest'.head?) : l.EndsBefore rest ↔ l.EndsBefore rest' := by
  cases l with
  | text text position => cases position <;> simp only [EndsBefore, h]
  | _ => simp only [EndsBefore, Breaks, h]

/-- **Another gap** in front of a chunk: what the chunk holds stays, and the lexeme before
it still ends there. -/
theorem Laid.setGap {ending gap : List Char} {c : Chunk} {after : List Chunk} (hgap : Gap gap)
    (hne : gap ≠ []) {before : List Chunk} (h : Laid ending (before ++ c :: after)) :
    Laid ending (before ++ { c with gap } :: after) := by
  induction before with
  | nil =>
      cases h with
      | cons _ hword hends hrest => exact .cons hgap hword hends hrest
  | cons first before ih =>
      cases h with
      | cons hfirst hword hends hrest =>
      refine .cons hfirst hword ?_ (ih hrest)
      cases before with
      | nil => exact first.lexeme.endsBefore_gap hgap hne _
      | cons second before =>
          cases hrest with
          | cons _ hsecond _ _ =>
          have hhead : ∀ rest, (second.gap ++ (second.word ++ rest)).head?
              = (second.gap ++ second.word).head? := by
            intro rest
            obtain ⟨d, cs, hd⟩ := List.exists_cons_of_ne_nil hsecond.ne_nil
            simp [hd]
          exact (first.lexeme.endsBefore_congr ((hhead _).trans (hhead _).symm)).1 hends

/-! ## from lexemes to characters -/

section

variable {offset place : Nat} {c : Char} {cs rest : List Char}

theorem escaped_of_scanText {seen : List Char} {text : String}
    (h : scanText offset seen cs = some (text, place, rest)) :
    ∃ raw decoded, cs = raw ++ '"' :: rest ∧ Escaped raw decoded ∧
      text = String.ofList (seen.reverse ++ decoded) := by
  fun_induction scanText offset seen cs with
  | case1 => contradiction
  | case2 offset seen =>
      cases h
      exact ⟨[], [], rfl, .nil, by simp⟩
  | case3 => contradiction
  | case4 offset seen e cs _ ih =>
      obtain ⟨raw, decoded, rfl, hraw, rfl⟩ := ih h
      refine ⟨'\\' :: e :: raw, unescape e :: decoded, rfl, ?_, by simp⟩
      by_cases hn : e = 'n'
      · subst hn
        exact .newline hraw
      by_cases ht : e = 't'
      · subst ht
        exact .tab hraw
      rw [unescape, if_neg hn, if_neg ht]
      exact .other hn ht hraw
  | case5 offset seen e cs hquote hbackslash ih =>
      obtain ⟨raw, decoded, rfl, hraw, rfl⟩ := ih h
      exact ⟨e :: raw, e :: decoded, rfl, .plain hquote hbackslash hraw, by simp⟩

/-- What is left of a span starts with a character that does not belong to it. -/
theorem eq_false_of_mem_head?_dropWhile {p : Char → Bool} (h : c ∈ (cs.dropWhile p).head?) :
    p c = false := by
  have hhead := List.head?_dropWhile_not p cs
  rw [Option.mem_def] at h
  rw [h] at hhead
  simpa using hhead

/-- What is found behind a text is its position. -/
theorem position_of_scanPosition {position : Option Position}
    (h : scanPosition offset cs = .ok (position, place, rest)) :
    (position = none ∧ cs = rest ∧ rest.head? ≠ some '@') ∨
      ∃ spec p, position = some p ∧ cs = '@' :: (spec ++ rest) ∧ IsPosition spec p ∧
        (∀ c ∈ spec, isPositionChar c = true) ∧ ∀ c ∈ rest.head?, isPositionChar c = false := by
  unfold scanPosition at h
  split at h
  · next tail =>
    dsimp only at h
    split at h
    · contradiction
    · next p hp =>
      cases h
      refine .inr ⟨tail.takeWhile isPositionChar, p, rfl, ?_, readPosition_eq_some_iff.1 hp,
        List.all_eq_true.1 List.all_takeWhile, ?_⟩
      · rw [List.takeWhile_append_dropWhile]
      · exact fun c hc => eq_false_of_mem_head?_dropWhile hc
  · next hat =>
    cases h
    refine .inl ⟨rfl, rfl, fun hhead => ?_⟩
    obtain ⟨tail, rfl⟩ := List.head?_eq_some_iff.1 hhead
    exact hat tail rfl

/-- A text that is found is written with its position in front of what is left. -/
theorem spells_of_scanText {text : String} {next : Nat} {tail : List Char}
    {position : Option Position} (htext : scanText offset [] cs = some (text, next, tail))
    (hposition : scanPosition next tail = .ok (position, place, rest)) :
    ∃ word, '"' :: cs = word ++ rest ∧ Spells word (.text text position)
      ∧ (Lexeme.text text position).EndsBefore rest := by
  obtain ⟨raw, decoded, rfl, hraw, rfl⟩ := escaped_of_scanText htext
  rcases position_of_scanPosition hposition with
    ⟨rfl, rfl, hrest⟩ | ⟨spec, p, rfl, rfl, hspec, hchars, hrest⟩
  · exact ⟨_, by simp, .text hraw, hrest⟩
  · exact ⟨_, by simp, .placed hraw hchars hspec, hrest⟩

/-- An atom that is found is written in front of what is left. -/
theorem spells_of_takeWhile (hc : isDelimiter c = false) (cs : List Char) :
    ∃ word, c :: cs = word ++ cs.dropWhile (!isDelimiter ·)
      ∧ Spells word (.atom (String.ofList (c :: cs.takeWhile (!isDelimiter ·))))
      ∧ Breaks (cs.dropWhile (!isDelimiter ·)) := by
  refine ⟨c :: cs.takeWhile (!isDelimiter ·), ?_, ?_, ?_⟩
  · rw [List.cons_append, List.takeWhile_append_dropWhile]
  · have hname : isName (String.ofList (c :: cs.takeWhile (!isDelimiter ·))) = true := by
      simp only [isName, String.toList_ofList, List.isEmpty_cons, List.all_cons, hc, Bool.not_false,
        Bool.true_and]
      exact List.all_takeWhile
    simpa using Spells.atom hname
  · intro d hd
    simpa using eq_false_of_mem_head?_dropWhile hd

/-- **A lexeme that is found** is written in front of what is left. -/
theorem spells_of_scan {lexeme : Lexeme}
    (h : scan offset c cs = .ok (some lexeme, place, rest)) :
    ∃ word, c :: cs = word ++ rest ∧ Spells word lexeme ∧ lexeme.EndsBefore rest := by
  unfold scan at h
  split at h
  · simp at h
  next hblank =>
  split at h
  · simp at h
  next hcomment =>
  split at h
  · next hc =>
    cases h
    exact ⟨['('], by rw [hc]; rfl, .opening, trivial⟩
  next hopening =>
  split at h
  · next hc =>
    cases h
    exact ⟨[')'], by rw [hc]; rfl, .closing, trivial⟩
  next hclosing =>
  split at h
  · next hc =>
    cases h
    exact ⟨['='], by rw [hc]; rfl, .equals, trivial⟩
  next hequals =>
  split at h
  · next hquote =>
    subst hquote
    split at h
    · contradiction
    · next htext =>
      split at h
      · contradiction
      · next hposition =>
        cases h
        exact spells_of_scanText htext hposition
  next hquote =>
  cases h
  have hc : isDelimiter c = false := by
    simp [isDelimiter, hblank, hcomment, hopening, hclosing, hequals, hquote]
  exact spells_of_takeWhile hc cs

/-- Where no lexeme is found there is white space, or a comment. -/
theorem gap_of_scan (h : scan offset c cs = .ok (none, place, rest)) :
    (isBlank c = true ∧ rest = cs) ∨ (c = ';' ∧ rest = cs.dropWhile (· != '\n')) := by
  unfold scan at h
  split at h
  · next hblank =>
    cases h
    exact .inl ⟨hblank, rfl⟩
  · split at h
    · next hcomment =>
      cases h
      exact .inr ⟨hcomment, rfl⟩
    · repeat' split at h
      all_goals simp at h

/-- A comment goes on to the end of its line. -/
theorem span_comment {cs rest : List Char} (hline : '\n' ∉ cs) (hrest : ∀ c ∈ rest.head?, c = '\n') :
    (cs ++ rest).takeWhile (· != '\n') = cs ∧ (cs ++ rest).dropWhile (· != '\n') = rest := by
  refine takeWhile_append_of_break (fun c hc => ?_) (fun c hc => ?_)
  · have hne : c ≠ '\n' := fun heq => hline (heq ▸ hc)
    simpa using hne
  · simpa using hrest c hc

/-- What is left behind a comment: nothing, or the end of its line and what follows. -/
theorem dropWhile_comment (cs : List Char) :
    ('\n' ∉ cs ∧ cs.dropWhile (· != '\n') = []) ∨
      ∃ before after, '\n' ∉ before ∧ cs = before ++ '\n' :: after ∧
        cs.dropWhile (· != '\n') = '\n' :: after := by
  cases hcut : cut '\n' cs with
  | none =>
      have hline := cut_eq_none_iff.1 hcut
      refine .inl ⟨hline, ?_⟩
      have hnone : ∀ c ∈ ([] : List Char).head?, c = '\n' := by simp
      simpa using (span_comment hline hnone).2
  | some parts =>
      obtain ⟨before, after⟩ := parts
      have hline := not_mem_of_cut hcut
      obtain rfl := eq_append_of_cut hcut
      exact .inr ⟨before, after, hline, rfl, (span_comment hline (by simp)).2⟩

end

/-! ## from characters to lexemes -/

section

variable {rest : List Char}

theorem scanText_quote (offset : Nat) (seen rest : List Char) :
    scanText offset seen ('"' :: rest)
      = some (String.ofList seen.reverse, offset + 1, rest) := by
  rw [scanText.eq_def]
  rfl

theorem scanText_backslash (offset : Nat) (seen : List Char) (e : Char) (rest : List Char) :
    scanText offset seen ('\\' :: e :: rest)
      = scanText (offset + 1 + e.utf8Size) (unescape e :: seen) rest := rfl

theorem scanText_plain (offset : Nat) (seen : List Char) {c : Char} (rest : List Char)
    (hquote : c ≠ '"') (hbackslash : c ≠ '\\') :
    scanText offset seen (c :: rest) = scanText (offset + c.utf8Size) (c :: seen) rest := by
  rw [scanText.eq_def]
  simp only [hquote, hbackslash, if_false]

/-- What is escaped is read back, up to the closing quote. -/
theorem scanText_of_escaped {raw text : List Char} (h : Escaped raw text) (rest : List Char)
    (offset : Nat) (seen : List Char) : ∃ place, scanText offset seen (raw ++ '"' :: rest)
      = some (String.ofList (seen.reverse ++ text), place, rest) := by
  induction h generalizing offset seen with
  | nil => exact ⟨offset + 1, by rw [List.nil_append, scanText_quote, List.append_nil]⟩
  | @plain c cs text hquote hbackslash _ ih =>
      obtain ⟨place, hplace⟩ := ih (offset + c.utf8Size) (c :: seen)
      refine ⟨place, ?_⟩
      rw [List.cons_append, scanText_plain _ _ _ hquote hbackslash, hplace]
      simp
  | newline _ ih =>
      obtain ⟨place, hplace⟩ := ih (offset + 1 + 'n'.utf8Size) ('\n' :: seen)
      have hescape : unescape 'n' = '\n' := rfl
      refine ⟨place, ?_⟩
      rw [List.cons_append, List.cons_append, scanText_backslash, hescape, hplace]
      simp
  | tab _ ih =>
      obtain ⟨place, hplace⟩ := ih (offset + 1 + 't'.utf8Size) ('\t' :: seen)
      have hescape : unescape 't' = '\t' := rfl
      refine ⟨place, ?_⟩
      rw [List.cons_append, List.cons_append, scanText_backslash, hescape, hplace]
      simp
  | @other c cs text hn ht _ ih =>
      obtain ⟨place, hplace⟩ := ih (offset + 1 + c.utf8Size) (c :: seen)
      refine ⟨place, ?_⟩
      rw [List.cons_append, List.cons_append, scanText_backslash, unescape, if_neg hn, if_neg ht,
        hplace]
      simp

theorem scanPosition_of_not_at (hrest : rest.head? ≠ some '@') (offset : Nat) :
    scanPosition offset rest = .ok (none, offset, rest) := by
  unfold scanPosition
  split
  · contradiction
  · rfl

theorem scanPosition_of_spec {spec : List Char} {p : Position} (hspec : IsPosition spec p)
    (hchars : ∀ c ∈ spec, isPositionChar c = true)
    (hrest : ∀ c ∈ rest.head?, isPositionChar c = false) (offset : Nat) :
    scanPosition offset ('@' :: (spec ++ rest))
      = .ok (some p, offset + 1 + byteLength spec, rest) := by
  obtain ⟨htake, hdrop⟩ := takeWhile_append_of_break hchars hrest
  rw [scanPosition]
  simp only [htake, hdrop, readPosition_eq_some_iff.2 hspec]

theorem scan_quote {offset place final : Nat} {cs behind rest : List Char} {text : String}
    {position : Option Position}
    (htext : scanText (offset + 1) [] cs = some (text, place, behind))
    (hposition : scanPosition place behind = .ok (position, final, rest)) :
    scan offset '"' cs = .ok (some (.text text position), final, rest) := by
  have hblank : isBlank '"' = false := by decide
  simp [scan, hblank, htext, hposition]

/-- **A lexeme that is written** in front of what does not run into it is found. -/
theorem exists_scan_of_spells {word : List Char} {lexeme : Lexeme} (hword : Spells word lexeme)
    (hends : lexeme.EndsBefore rest) : ∃ c cs, word ++ rest = c :: cs ∧
      ∀ offset, ∃ place, scan offset c cs = .ok (some lexeme, place, rest) := by
  cases hword with
  | opening => exact ⟨'(', rest, rfl, fun offset => ⟨offset + 1, rfl⟩⟩
  | closing => exact ⟨')', rest, rfl, fun offset => ⟨offset + 1, rfl⟩⟩
  | equals => exact ⟨'=', rest, rfl, fun offset => ⟨offset + 1, rfl⟩⟩
  | atom hname => exact exists_scan_atom hname hends
  | @text raw text hraw =>
      refine ⟨'"', raw ++ '"' :: rest, by simp, fun offset => ?_⟩
      obtain ⟨place, hplace⟩ := scanText_of_escaped hraw rest (offset + 1) []
      exact ⟨place, scan_quote hplace (scanPosition_of_not_at hends place)⟩
  | @placed raw text spec p hraw hchars hspec =>
      refine ⟨'"', raw ++ '"' :: ('@' :: (spec ++ rest)), by simp, fun offset => ?_⟩
      obtain ⟨place, hplace⟩ :=
        scanText_of_escaped hraw ('@' :: (spec ++ rest)) (offset + 1) []
      exact ⟨_, scan_quote hplace (scanPosition_of_spec hspec hchars hends place)⟩

theorem lexes_spells {word : List Char} {lexeme : Lexeme} {lexemes : List Lexeme}
    (hword : Spells word lexeme) (hends : lexeme.EndsBefore rest) (h : Lexes rest lexemes) :
    Lexes (word ++ rest) (lexeme :: lexemes) := by
  obtain ⟨c, cs, hchars, hscan⟩ := exists_scan_of_spells hword hends
  rw [hchars]
  exact lexes_of_scan_some hscan h

end

end QueryAudit.Notation
