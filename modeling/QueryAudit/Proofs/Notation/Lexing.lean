import QueryAudit.Notation.Lexeme

/-!
# QueryAudit.Proofs.Notation.Lexing

Lexemes and the characters they are cut from.  `Lexes cs ls` says that the
characters `cs` are cut into the lexemes `ls`, at whatever offset they stand; a
lexeme can be put in front when what follows does not run into it.

* `lexes_of_scan_some`, `lexes_of_scan_none` — one more lexeme, white space or comment;
* `lexes_atom` — a name in front of a break.
-/

namespace QueryAudit.Notation

/-! ## names -/

/-- Whether a text can stand as one atom. -/
def isName (s : String) : Bool := !s.toList.isEmpty && s.toList.all (!isDelimiter ·)

/-- Whether an atom among lexemes is a name. -/
def Lexeme.isProper : Lexeme → Bool
  | .atom name => isName name
  | _ => true

/-- A break ends an atom and a position: the text is over or a delimiter comes. -/
def Breaks (cs : List Char) : Prop := ∀ c ∈ cs.head?, isDelimiter c = true

theorem isDelimiter_of_isPositionChar {c : Char} (h : isPositionChar c = true) :
    isDelimiter c = false := by
  have hrange : 0x30 ≤ c.toNat ∧ c.toNat ≤ 0x3A := by
    simp only [isPositionChar, Bool.or_eq_true, beq_iff_eq] at h
    rcases h with h | rfl
    · simp only [Char.isDigit, Bool.and_eq_true, decide_eq_true_eq] at h
      have hlow := UInt32.le_iff_toNat_le.1 h.1
      have hhigh := UInt32.le_iff_toNat_le.1 h.2
      simp only [Char.toNat]
      constructor
      · exact hlow
      · exact Nat.le_trans hhigh (by decide)
    · decide
  have hne : ∀ d : Char, d.toNat < 0x30 ∨ 0x3A < d.toNat → c ≠ d := by
    rintro d hd rfl
    omega
  have hblank : isBlank c = false := by
    simp [isBlank, blankRanges]
    omega
  simp [isDelimiter, hblank, hne '(' (by decide), hne ')' (by decide), hne '=' (by decide),
    hne '"' (by decide), hne ';' (by decide)]

/-! ## characters and their lexemes -/

theorem lexFrom_of_scan_some {offset place : Nat} {c : Char} {cs rest : List Char}
    {lexeme : Lexeme} (h : scan offset c cs = .ok (some lexeme, place, rest))
    (seen : List (Lexeme × Nat)) :
    lexFrom offset seen (c :: cs) = lexFrom place ((lexeme, offset) :: seen) rest := by
  rw [lexFrom]
  split <;> simp_all

theorem lexFrom_of_scan_none {offset place : Nat} {c : Char} {cs rest : List Char}
    (h : scan offset c cs = .ok (none, place, rest)) (seen : List (Lexeme × Nat)) :
    lexFrom offset seen (c :: cs) = lexFrom place seen rest := by
  rw [lexFrom]
  split <;> simp_all

/-- Characters are cut into these lexemes, wherever they stand. -/
def Lexes (cs : List Char) (lexemes : List Lexeme) : Prop :=
  ∀ (offset : Nat) (seen : List (Lexeme × Nat)), ∃ found,
    lexFrom offset seen cs = .ok (seen.reverse ++ found) ∧ found.map (·.1) = lexemes

section

variable {c : Char} {cs rest : List Char} {lexeme : Lexeme} {lexemes : List Lexeme}

theorem lexes_nil : Lexes [] [] := fun offset seen =>
  ⟨[], by rw [lexFrom, List.append_nil], rfl⟩

theorem lexes_of_scan_some
    (hscan : ∀ offset, ∃ place, scan offset c cs = .ok (some lexeme, place, rest))
    (h : Lexes rest lexemes) : Lexes (c :: cs) (lexeme :: lexemes) := by
  intro offset seen
  obtain ⟨place, hplace⟩ := hscan offset
  obtain ⟨found, hfound, hlexemes⟩ := h place ((lexeme, offset) :: seen)
  refine ⟨(lexeme, offset) :: found, ?_, by rw [List.map_cons, hlexemes]⟩
  rw [lexFrom_of_scan_some hplace, hfound, List.reverse_cons, List.append_assoc]
  rfl

theorem lexes_of_scan_none
    (hscan : ∀ offset, ∃ place, scan offset c cs = .ok (none, place, rest))
    (h : Lexes rest lexemes) : Lexes (c :: cs) lexemes := by
  intro offset seen
  obtain ⟨place, hplace⟩ := hscan offset
  obtain ⟨found, hfound, hlexemes⟩ := h place seen
  exact ⟨found, by rw [lexFrom_of_scan_none hplace, hfound], hlexemes⟩

theorem lexes_blank (hc : isBlank c = true) (h : Lexes cs lexemes) : Lexes (c :: cs) lexemes :=
  lexes_of_scan_none (fun offset => ⟨offset + c.utf8Size, by rw [scan, if_pos hc]⟩) h

theorem lexes_replicate (n : Nat) (h : Lexes cs lexemes) :
    Lexes (List.replicate n ' ' ++ cs) lexemes := by
  induction n with
  | zero => exact h
  | succ n ih => exact lexes_blank (by decide) ih

theorem lexes_opening (h : Lexes cs lexemes) : Lexes ('(' :: cs) (.opening :: lexemes) :=
  lexes_of_scan_some (fun offset => ⟨offset + 1, rfl⟩) h

theorem lexes_closing (h : Lexes cs lexemes) : Lexes (')' :: cs) (.closing :: lexemes) :=
  lexes_of_scan_some (fun offset => ⟨offset + 1, rfl⟩) h

theorem lexes_equals (h : Lexes cs lexemes) : Lexes ('=' :: cs) (.equals :: lexemes) :=
  lexes_of_scan_some (fun offset => ⟨offset + 1, rfl⟩) h

end

/-! ## names before a break -/

theorem takeWhile_append_of_break {p : Char → Bool} {cs rest : List Char}
    (hcs : ∀ c ∈ cs, p c = true) (hrest : ∀ c ∈ rest.head?, p c = false) :
    (cs ++ rest).takeWhile p = cs ∧ (cs ++ rest).dropWhile p = rest := by
  rw [List.takeWhile_append_of_pos hcs, List.dropWhile_append_of_pos hcs]
  cases rest with
  | nil => simp
  | cons c rest =>
      have hc : p c = false := hrest c rfl
      simp [hc]

/-- A name in front of a break is found as one atom. -/
theorem exists_scan_atom {name : String} {rest : List Char} (hname : isName name = true)
    (hbreak : Breaks rest) : ∃ c cs, name.toList ++ rest = c :: cs ∧
      ∀ offset, ∃ place, scan offset c cs = .ok (some (.atom name), place, rest) := by
  rw [isName, Bool.and_eq_true, List.all_eq_true] at hname
  obtain ⟨hne, hall⟩ := hname
  cases hlist : name.toList with
  | nil => simp [hlist] at hne
  | cons c cs =>
      rw [hlist] at hall
      have hc : isDelimiter c = false := by simpa using hall c List.mem_cons_self
      obtain ⟨htake, hdrop⟩ := @takeWhile_append_of_break (!isDelimiter ·) cs rest
        (fun d hd => hall d (List.mem_cons_of_mem c hd))
        (fun d hd => by simp [hbreak d hd])
      simp only [isDelimiter, Bool.or_eq_false_iff, beq_eq_false_iff_ne, ne_eq] at hc
      obtain ⟨⟨⟨⟨⟨hblank, hopening⟩, hclosing⟩, hequals⟩, hquote⟩, hcomment⟩ := hc
      refine ⟨c, cs ++ rest, rfl, fun offset => ⟨offset + c.utf8Size + byteLength cs, ?_⟩⟩
      rw [scan]
      simp only [hblank, hcomment, hopening, hclosing, hequals, hquote, Bool.false_eq_true,
        if_false, htake, hdrop]
      rw [← hlist, String.ofList_toList]

theorem lexes_atom {name : String} {rest : List Char} {lexemes : List Lexeme}
    (hname : isName name = true) (hbreak : Breaks rest) (h : Lexes rest lexemes) :
    Lexes (name.toList ++ rest) (.atom name :: lexemes) := by
  obtain ⟨c, cs, hchars, hscan⟩ := exists_scan_atom hname hbreak
  rw [hchars]
  exact lexes_of_scan_some hscan h

end QueryAudit.Notation
