import QueryAudit.Json.Writer
import QueryAudit.Proofs.Json.Numeral
import QueryAudit.Proofs.Json.Spelling

/-!
# QueryAudit.Proofs.Json.Written

A value that is written is read back, in either layout, when its numbers are natural.
`Lexes cs ts` says that the characters `cs` are cut into the tokens `ts`.

* `scanString_escape`, `lexes_quote` — the characters of a string, whatever they are;
* `lexes_writeOnto` — what is written of a value are its tokens;
* `read_write` — the text of a value is read as that value.
-/

namespace QueryAudit.Json

/-! ## characters and their tokens -/

/-- Characters are cut into these tokens. -/
def Lexes (cs : List Char) (ts : List Token) : Prop :=
  ∀ seen, tokensFrom seen cs = some (seen.reverse ++ ts)

section

variable {c : Char} {cs rest : List Char} {ts : List Token}

theorem lexes_nil : Lexes [] [] := fun seen => by rw [tokensFrom, List.append_nil]

theorem lexes_of_scan_some {token : Token} (hscan : scanToken c cs = some (some token, rest))
    (h : Lexes rest ts) : Lexes (c :: cs) (token :: ts) := by
  intro seen
  rw [tokensFrom]
  split <;> simp_all [Lexes]

theorem lexes_of_scan_none (hscan : scanToken c cs = some (none, rest)) (h : Lexes rest ts) :
    Lexes (c :: cs) ts := by
  intro seen
  rw [tokensFrom]
  split <;> simp_all [Lexes]

theorem lexes_space (hc : isSpace c = true) (h : Lexes cs ts) : Lexes (c :: cs) ts :=
  lexes_of_scan_none (by rw [scanToken, if_pos hc]) h

theorem lexes_gap (layout : Layout) (depth : Nat) (h : Lexes cs ts) :
    Lexes (layout.gap depth ++ cs) ts := by
  cases layout with
  | compact => exact h
  | indented =>
      have hspaces : ∀ n, Lexes (List.replicate n ' ' ++ cs) ts := by
        intro n
        induction n with
        | zero => exact h
        | succ n ih => exact lexes_space rfl ih
      exact lexes_space rfl (hspaces _)

theorem lexes_colon (layout : Layout) (h : Lexes cs ts) :
    Lexes (layout.colon ++ cs) (.colon :: ts) := by
  cases layout with
  | compact => exact lexes_of_scan_some rfl h
  | indented => exact lexes_of_scan_some rfl (lexes_space rfl h)

end

/-! ## strings -/

/-- What a written character is scanned as. -/
def writtenPart (c : Char) : StringPart :=
  if c.toNat < 0x20 ∧ c ∉ ['\x08', '\x0c', '\n', '\r', '\t'] then .unit c.toNat else .char c

/-- The digits of a control character are read as its number. -/
theorem hexUnit?_digitChar : ∀ n < 0x20,
    hexUnit? '0' '0' (Nat.digitChar (n / 16)) (Nat.digitChar (n % 16)) = some n := by
  decide

theorem scanString_plain {c : Char} (hquote : c ≠ '"') (hbackslash : c ≠ '\\')
    (hcontrol : ¬ c.toNat < 0x20) (seen : List StringPart) (rest : List Char) :
    scanString seen (c :: rest) = scanString (.char c :: seen) rest := by
  rw [scanString.eq_def]
  split <;> rename_i heq <;> cases heq
  case h_4 => rw [if_neg (by simp [hcontrol, hbackslash])]
  all_goals contradiction

/-- **A written character** is scanned as one part. -/
theorem scanString_escape (c : Char) (seen : List StringPart) (rest : List Char) :
    scanString seen (escape c ++ rest) = scanString (writtenPart c :: seen) rest := by
  by_cases hspecial : c ∈ ['"', '\\', '\x08', '\x0c', '\n', '\r', '\t']
  · simp only [List.mem_cons, List.not_mem_nil, or_false] at hspecial
    rcases hspecial with rfl | rfl | rfl | rfl | rfl | rfl | rfl <;> rfl
  · simp only [List.mem_cons, List.not_mem_nil, or_false, not_or] at hspecial
    obtain ⟨hquote, hbackslash, hb, hf, hn, hr, ht⟩ := hspecial
    by_cases hcontrol : c.toNat < 0x20
    · have hpart : writtenPart c = .unit c.toNat := by simp [writtenPart, *]
      have hescape : escape c = ['\\', 'u', '0', '0', Nat.digitChar (c.toNat / 16),
          Nat.digitChar (c.toNat % 16)] := by simp [escape, *]
      rw [hescape, hpart]
      simp [scanString, hexUnit?_digitChar c.toNat hcontrol]
    · have hpart : writtenPart c = .char c := by simp [writtenPart, hcontrol]
      have hescape : escape c = [c] := by simp [escape, *]
      rw [hescape, hpart, List.singleton_append, scanString_plain hquote hbackslash hcontrol]

theorem scanString_flatMap_escape (cs : List Char) (seen : List StringPart) (rest : List Char) :
    scanString seen (cs.flatMap escape ++ '"' :: rest)
      = some ((cs.map writtenPart).reverse ++ seen, rest) := by
  induction cs generalizing seen with
  | nil => rfl
  | cons c cs ih =>
      rw [List.flatMap_cons, List.append_assoc, scanString_escape, ih]
      simp

/-- The parts of a written string are its characters. -/
theorem joinParts_map_writtenPart (cs seen : List Char) :
    joinParts seen (cs.map writtenPart) = some (seen.reverse ++ cs) := by
  induction cs generalizing seen with
  | nil => simp [joinParts]
  | cons c cs ih =>
      have hjoin : joinParts seen (writtenPart c :: cs.map writtenPart)
          = joinParts (c :: seen) (cs.map writtenPart) := by
        rw [writtenPart]
        split
        · rename_i hcontrol
          have hlow : isLowSurrogate c.toNat = false := by
            simp [isLowSurrogate]
            omega
          have hhigh : isHighSurrogate c.toNat = false := by
            simp [isHighSurrogate]
            omega
          rw [joinParts.eq_def]
          simp only [hlow, hhigh, Bool.false_eq_true, if_false, Char.ofNat_toNat]
        · rfl
      rw [List.map_cons, hjoin, ih]
      simp

/-- **A string** in quotes is one token. -/
theorem lexes_quote (s : Option String) {cs : List Char} {ts : List Token} (h : Lexes cs ts) :
    Lexes (quote s ++ cs) (.string s :: ts) := by
  cases s with
  | none => exact lexes_of_scan_some rfl h
  | some s =>
      have hscan : scanQuoted (s.toList.flatMap escape ++ '"' :: cs)
          = some (some (.string (some s)), cs) := by
        rw [scanQuoted, scanString_flatMap_escape]
        dsimp only
        rw [List.append_nil, List.reverse_reverse, joinParts_map_writtenPart]
        simp
      have hquote : quote (some s) ++ cs = '"' :: (s.toList.flatMap escape ++ '"' :: cs) := by
        simp [quote]
      rw [hquote]
      exact lexes_of_scan_some hscan h

/-! ## numbers -/

/-- A digit is read as the start of a number. -/
theorem scanToken_of_isDigit {c : Char} (h : c.isDigit = true) (rest : List Char) :
    scanToken c rest = scanNumber c rest := by
  have hne : ∀ d, d.isDigit = false → c ≠ d := by
    rintro d hd rfl
    rw [h] at hd
    contradiction
  simp [scanToken, isSpace, punctuation?, word?, hne ' ' rfl, hne '\t' rfl, hne '\n' rfl,
    hne '\r' rfl, hne '[' rfl, hne ']' rfl, hne '\x7b' rfl, hne '\x7d' rfl, hne ':' rfl,
    hne ',' rfl, hne 'n' rfl, hne 't' rfl, hne 'f' rfl, hne '"' rfl]

/-- **A natural number** is one token, when its numeral ends. -/
theorem lexes_number (n : Nat) {cs : List Char} {ts : List Token} (hend : EndsNumeral cs)
    (h : Lexes cs ts) : Lexes ((Nat.repr n).toList ++ cs) (.number (Nat.repr n) :: ts) := by
  have hnumeral := scanNumeral_repr n hend
  rw [Nat.toList_repr]
  cases hcons : Nat.toDigits 10 n with
  | nil => exact absurd hcons Nat.toDigits_ne_nil
  | cons d ds =>
      rw [hcons, List.cons_append] at hnumeral
      have hdigit : d.isDigit = true := isDigit_of_mem_toDigits (hcons ▸ List.mem_cons_self)
      have hminus : d ≠ '-' := by
        rintro rfl
        contradiction
      have hscan : scanToken d (ds ++ cs) = some (some (.number (Nat.repr n)), cs) := by
        rw [scanToken_of_isDigit hdigit, scanNumber, if_neg hminus, hnumeral]
      exact lexes_of_scan_some hscan h

/-! ## values -/

mutual

/-- A value whose numbers are natural and written without leading zeros. -/
def HasNaturals : Json → Prop
  | number numeral => ∃ n, numeral = Nat.repr n
  | array items => AllHaveNaturals items
  | object members => MembersHaveNaturals members
  | _ => True

/-- Values whose numbers are natural. -/
def AllHaveNaturals : List Json → Prop
  | [] => True
  | value :: rest => value.HasNaturals ∧ AllHaveNaturals rest

/-- Members whose values have natural numbers only. -/
def MembersHaveNaturals : List (Option String × Json) → Prop
  | [] => True
  | (_, value) :: rest => value.HasNaturals ∧ MembersHaveNaturals rest

end

theorem allHaveNaturals_of_forall {items : List Json} (h : ∀ v ∈ items, v.HasNaturals) :
    AllHaveNaturals items := by
  induction items with
  | nil => exact trivial
  | cons v rest ih =>
      obtain ⟨hv, hrest⟩ := List.forall_mem_cons.1 h
      exact ⟨hv, ih hrest⟩

theorem membersHaveNaturals_of_forall {members : List (String × Json)}
    (h : ∀ m ∈ members, m.2.HasNaturals) :
    MembersHaveNaturals (members.map fun (name, value) => (some name, value)) := by
  induction members with
  | nil => exact trivial
  | cons m rest ih =>
      obtain ⟨hm, hrest⟩ := List.forall_mem_cons.1 h
      exact ⟨hm, ih hrest⟩

/-- What comes behind an item or a member ends its numeral. -/
theorem endsNumeral_gap (layout : Layout) (depth : Nat) {c : Char} (hc : isNumeralChar c = false)
    (cs : List Char) : EndsNumeral (layout.gap depth ++ c :: cs) := by
  intro d hd
  cases layout with
  | compact =>
      cases hd
      exact hc
  | indented =>
      cases hd
      rfl

theorem endsNumeral_writeItems (layout : Layout) (depth : Nat) (after : List Char)
    (items : List Json) : EndsNumeral (writeItems layout depth after items) := by
  cases items with
  | nil =>
      rw [writeItems]
      exact endsNumeral_gap layout depth rfl after
  | cons v rest =>
      rw [writeItems]
      rintro c ⟨⟩
      rfl

theorem endsNumeral_writeMembers (layout : Layout) (depth : Nat) (after : List Char)
    (members : List (Option String × Json)) :
    EndsNumeral (writeMembers layout depth after members) := by
  cases members with
  | nil =>
      rw [writeMembers]
      exact endsNumeral_gap layout depth rfl after
  | cons m rest =>
      rw [writeMembers]
      rintro c ⟨⟩
      rfl

/-- What stands in front of the value of a member. -/
theorem lexes_member (layout : Layout) (depth : Nat) (name : Option String) {cs : List Char}
    {ts : List Token} (h : Lexes cs ts) :
    Lexes (layout.gap depth ++ (quote name ++ (layout.colon ++ cs)))
      (.string name :: .colon :: ts) :=
  lexes_gap layout depth (lexes_quote name (lexes_colon layout h))

mutual

/-- **What is written** of a value are its tokens. -/
theorem lexes_writeOnto (layout : Layout) (depth : Nat) {after : List Char} {ts : List Token}
    (hend : EndsNumeral after) (hafter : Lexes after ts) (v : Json) (h : v.HasNaturals) :
    Lexes (writeOnto layout depth after v) (v.spell ++ ts) := by
  match v with
  | null => exact lexes_of_scan_some rfl hafter
  | bool true => exact lexes_of_scan_some rfl hafter
  | bool false => exact lexes_of_scan_some rfl hafter
  | number numeral =>
      rw [HasNaturals] at h
      obtain ⟨n, rfl⟩ := h
      exact lexes_number n hend hafter
  | string s => exact lexes_quote s hafter
  | array [] => exact lexes_of_scan_some rfl (lexes_of_scan_some rfl hafter)
  | array (v :: rest) =>
      rw [HasNaturals, AllHaveNaturals] at h
      rw [writeOnto, spell, List.cons_append, List.cons_append, List.append_assoc]
      exact lexes_of_scan_some rfl (lexes_gap layout _ (lexes_writeOnto layout (depth + 1)
        (endsNumeral_writeItems layout depth after rest)
        (lexes_writeItems layout depth hafter rest h.2) v h.1))
  | object [] => exact lexes_of_scan_some rfl (lexes_of_scan_some rfl hafter)
  | object ((name, v) :: rest) =>
      rw [HasNaturals, MembersHaveNaturals] at h
      have hmember := lexes_member layout (depth + 1) name (lexes_writeOnto layout (depth + 1)
        (endsNumeral_writeMembers layout depth after rest)
        (lexes_writeMembers layout depth hafter rest h.2) v h.1)
      simpa [writeOnto, spell] using lexes_of_scan_some rfl hmember

theorem lexes_writeItems (layout : Layout) (depth : Nat) {after : List Char} {ts : List Token}
    (hafter : Lexes after ts) (items : List Json) (h : AllHaveNaturals items) :
    Lexes (writeItems layout depth after items) (spellItems items ++ ts) := by
  match items with
  | [] => exact lexes_gap layout depth (lexes_of_scan_some rfl hafter)
  | v :: rest =>
      rw [AllHaveNaturals] at h
      rw [writeItems, spellItems, List.cons_append, List.cons_append, List.append_assoc]
      exact lexes_of_scan_some rfl (lexes_gap layout _ (lexes_writeOnto layout (depth + 1)
        (endsNumeral_writeItems layout depth after rest)
        (lexes_writeItems layout depth hafter rest h.2) v h.1))

theorem lexes_writeMembers (layout : Layout) (depth : Nat) {after : List Char} {ts : List Token}
    (hafter : Lexes after ts) (members : List (Option String × Json))
    (h : MembersHaveNaturals members) :
    Lexes (writeMembers layout depth after members) (spellMembers members ++ ts) := by
  match members with
  | [] => exact lexes_gap layout depth (lexes_of_scan_some rfl hafter)
  | (name, v) :: rest =>
      rw [MembersHaveNaturals] at h
      have hmember := lexes_member layout (depth + 1) name (lexes_writeOnto layout (depth + 1)
        (endsNumeral_writeMembers layout depth after rest)
        (lexes_writeMembers layout depth hafter rest h.2) v h.1)
      simpa [writeMembers, spellMembers] using lexes_of_scan_some rfl hmember

end

/-- **A written value** is read back. -/
theorem read_write (layout : Layout) (v : Json) (h : v.HasNaturals) :
    read (write layout v) = some v := by
  have hwritten := lexes_writeOnto layout 0 endsNumeral_nil lexes_nil v h []
  rw [read_eq_some_iff, tokens, write, String.toList_ofList, hwritten]
  simp

end QueryAudit.Json
