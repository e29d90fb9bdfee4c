import Mathlib.Order.Bounds.Basic
import QueryAudit.Proofs.Data.Bracketed
import QueryAudit.Proofs.Json.Nesting

/-!
# QueryAudit.Proofs.Json.Open

What is open at a place of a JSON text: the arrays and objects whose opening bracket stands in
front of the place and whose closing bracket does not.

* `bracketed_spell` — in the tokens of a value as much is open as the value nests;
* `ReadsTo.countP_isOpening` — what is open is what the reader keeps;
* `isGreatest_openAt` — the most that is open at a place in the text of a value.
-/

namespace QueryAudit.Json

/-- Whether a token opens an array or an object. -/
def Token.isOpening : Token → Bool
  | .openArray => true
  | .openObject => true
  | _ => false

/-- Whether a token closes an array or an object. -/
def Token.isClosing : Token → Bool
  | .closeArray => true
  | .closeObject => true
  | _ => false

/-! ## values -/

mutual

/-- **The tokens of a value** open as much as the value nests, and close all of it. -/
theorem bracketed_spell (v : Json) :
    Bracketed Token.isOpening Token.isClosing v.spell v.nesting := by
  have hempty : Bracketed Token.isOpening Token.isClosing [] 0 := .of_none rfl rfl
  match v with
  | null => exact .of_none rfl rfl
  | bool b => exact .of_none rfl rfl
  | number numeral => exact .of_none rfl rfl
  | string s => exact .of_none rfl rfl
  | array [] => exact hempty.around .openArray .closeArray ⟨rfl, rfl⟩ ⟨rfl, rfl⟩
  | array (v :: rest) =>
      obtain ⟨inner, hspell, hinner⟩ := bracketed_spellItems rest
      have hitems := (bracketed_spell v).append hinner
      rw [spell, hspell, ← List.append_assoc]
      exact hitems.around .openArray .closeArray ⟨rfl, rfl⟩ ⟨rfl, rfl⟩
  | object [] => exact hempty.around .openObject .closeObject ⟨rfl, rfl⟩ ⟨rfl, rfl⟩
  | object ((name, v) :: rest) =>
      obtain ⟨inner, hspell, hinner⟩ := bracketed_spellMembers rest
      have hmembers := ((bracketed_spell v).append hinner).behind [.string name, .colon] rfl rfl
      rw [spell, hspell, ← List.append_assoc]
      exact hmembers.around .openObject .closeObject ⟨rfl, rfl⟩ ⟨rfl, rfl⟩

/-- The tokens of items, in front of the bracket that closes the array. -/
theorem bracketed_spellItems (items : List Json) :
    ∃ inner, spellItems items = inner ++ [.closeArray] ∧
      Bracketed Token.isOpening Token.isClosing inner (nestingOfItems items) := by
  match items with
  | [] => exact ⟨[], rfl, .of_none rfl rfl⟩
  | v :: rest =>
      obtain ⟨inner, hspell, hinner⟩ := bracketed_spellItems rest
      have hitems := ((bracketed_spell v).append hinner).behind [.comma] rfl rfl
      refine ⟨.comma :: (v.spell ++ inner), ?_, hitems⟩
      rw [spellItems, hspell, List.cons_append, List.append_assoc]

/-- The tokens of members, in front of the bracket that closes the object. -/
theorem bracketed_spellMembers (members : List (Option String × Json)) :
    ∃ inner, spellMembers members = inner ++ [.closeObject] ∧
      Bracketed Token.isOpening Token.isClosing inner (nestingOfMembers members) := by
  match members with
  | [] => exact ⟨[], rfl, .of_none rfl rfl⟩
  | (name, v) :: rest =>
      obtain ⟨inner, hspell, hinner⟩ := bracketed_spellMembers rest
      have hmembers := ((bracketed_spell v).append hinner).behind [.comma, .string name, .colon]
        rfl rfl
      refine ⟨.comma :: .string name :: .colon :: (v.spell ++ inner), ?_, hmembers⟩
      rw [spellMembers, hspell, List.cons_append, List.cons_append, List.cons_append,
        List.append_assoc]

end

/-! ## the reader -/

/-- How many arrays and objects the reader keeps open.  An object is not among the others while
its next member name is expected. -/
def openCount (opened : List OpenValue) : Expected → Nat
  | .name _ => opened.length + 1
  | .firstName => opened.length + 1
  | _ => opened.length

/-- The tokens that the reader has looked at and not taken: a member name waits for its colon. -/
inductive Pending : Expected → List Token → Prop where
  | none (expected : Expected) : Pending expected []
  | name (members : List (Option String × Json)) (name : Option String) :
      Pending (.name members) [.string name]
  | firstName (name : Option String) : Pending .firstName [.string name]

/-- Behind `tokens` the reader goes on with `opened` and `expected`, whatever follows. -/
def ReadsTo (tokens : List Token) (opened : List OpenValue) (expected : Expected) : Prop :=
  ∃ pending, Pending expected pending ∧
    ∀ more, readFrom [] .value (tokens ++ more) = readFrom opened expected (pending ++ more)

/-- The token that closes an open array or object. -/
def OpenValue.closing : OpenValue → Token
  | .array _ => .closeArray
  | .object _ _ => .closeObject

theorem exists_readFrom_closing (opened : List OpenValue) (v : Json) :
    ∃ whole, readFrom opened (.after v) (opened.map OpenValue.closing) = some whole := by
  induction opened generalizing v with
  | nil => exact ⟨v, rfl⟩
  | cons o outer ih =>
      cases o with
      | array items => exact ih (.array (v :: items).reverse)
      | object members name => exact ih (.object ((name, v) :: members).reverse)

theorem countP_closing (opened : List OpenValue) :
    (opened.map OpenValue.closing).countP Token.isOpening = 0 ∧
      (opened.map OpenValue.closing).countP Token.isClosing = opened.length := by
  induction opened with
  | nil => exact ⟨rfl, rfl⟩
  | cons o outer ih =>
      cases o <;> simp [List.countP_cons, OpenValue.closing, Token.isOpening, Token.isClosing, ih]

/-- **Whatever is open can be closed**: some tokens complete the value, and close what is open. -/
theorem exists_completion (opened : List OpenValue) {expected : Expected} {pending : List Token}
    (h : Pending expected pending) :
    ∃ more whole, readFrom opened expected (pending ++ more) = some whole ∧
      more.countP Token.isClosing = more.countP Token.isOpening + openCount opened expected := by
  have hcount := countP_closing opened
  cases h with
  | none =>
      cases expected with
      | value | firstItem =>
          obtain ⟨whole, hwhole⟩ := exists_readFrom_closing opened .null
          exact ⟨.null :: opened.map OpenValue.closing, whole, hwhole,
            by simp [Token.isOpening, Token.isClosing, openCount, hcount]⟩
      | name members =>
          obtain ⟨whole, hwhole⟩ := exists_readFrom_closing (.object members none :: opened) .null
          exact ⟨.string none :: .colon :: .null :: .closeObject :: opened.map OpenValue.closing,
            whole, hwhole,
            by simp [List.countP_cons, Token.isOpening, Token.isClosing, openCount, hcount]⟩
      | firstName =>
          obtain ⟨whole, hwhole⟩ := exists_readFrom_closing opened (.object [])
          exact ⟨.closeObject :: opened.map OpenValue.closing, whole, hwhole,
            by simp [List.countP_cons, Token.isOpening, Token.isClosing, openCount, hcount]⟩
      | after v =>
          obtain ⟨whole, hwhole⟩ := exists_readFrom_closing opened v
          exact ⟨opened.map OpenValue.closing, whole, hwhole, by simp [openCount, hcount]⟩
  | name members name =>
      obtain ⟨whole, hwhole⟩ := exists_readFrom_closing (.object members name :: opened) .null
      exact ⟨.colon :: .null :: .closeObject :: opened.map OpenValue.closing, whole, hwhole,
        by simp [List.countP_cons, Token.isOpening, Token.isClosing, openCount, hcount]⟩
  | firstName name =>
      obtain ⟨whole, hwhole⟩ := exists_readFrom_closing (.object [] name :: opened) .null
      exact ⟨.colon :: .null :: .closeObject :: opened.map OpenValue.closing, whole, hwhole,
        by simp [List.countP_cons, Token.isOpening, Token.isClosing, openCount, hcount]⟩

/-- **What the reader keeps open** is what the tokens have opened and not closed. -/
theorem ReadsTo.countP_isOpening {tokens : List Token} {opened : List OpenValue}
    {expected : Expected} (h : ReadsTo tokens opened expected) :
    tokens.countP Token.isOpening = tokens.countP Token.isClosing + openCount opened expected := by
  obtain ⟨pending, hpending, hreads⟩ := h
  obtain ⟨more, whole, hwhole, hmore⟩ := exists_completion opened hpending
  have hspell : tokens ++ more = whole.spell :=
    readFrom_eq_some_iff.1 ((hreads more).trans hwhole)
  have hsettled := (bracketed_spell whole).settled
  rw [← hspell, List.countP_append, List.countP_append] at hsettled
  omega

/-- Where the reader stands behind some of the tokens that it reads as a value. -/
theorem exists_state_of_readFrom {opened : List OpenValue} {expected : Expected}
    {tokens : List Token} {v : Json} (h : readFrom opened expected tokens = some v) (k : Nat) :
    ∃ opened' expected' pending, Pending expected' pending ∧
      ∀ more, readFrom opened expected (tokens.take k ++ more)
        = readFrom opened' expected' (pending ++ more) := by
  fun_induction readFrom opened expected tokens generalizing k with
  | case1 => exact ⟨[], _, [], .none _, fun more => by rw [List.take_nil]⟩
  | case2 | case7 | case9 | case12 | case20 | case21 => contradiction
  -- the reader takes one token
  | case3 _ _ _ _ ih
  | case4 _ _ _ _ ih
  | case5 _ _ _ _ _ ih
  | case6 _ _ _ _ _ ih
  | case11 _ _ ih
  | case19 _ _ _ _ _ _ ih =>
      cases k with
      | zero => exact ⟨_, _, [], .none _, fun _ => rfl⟩
      | succ k => exact ih h k
  -- it takes a member name together with the colon
  | case8 opened members name rest ih =>
      rcases k with _ | _ | k
      · exact ⟨opened, .name members, [], .none _, fun _ => rfl⟩
      · exact ⟨opened, .name members, [.string name], .name members name, fun _ => rfl⟩
      · exact ih h k
  | case10 opened name rest ih =>
      rcases k with _ | _ | k
      · exact ⟨opened, .firstName, [], .none _, fun _ => rfl⟩
      · exact ⟨opened, .firstName, [.string name], .firstName name, fun _ => rfl⟩
      · exact ih h k
  -- it takes the first token of a value
  | case13 opened rest start hvalue hname hstart ih
  | case14 opened rest start hvalue hname hstart b ih
  | case15 opened rest start hvalue hname hstart numeral ih
  | case16 opened rest start hvalue hname hstart s ih
  | case17 opened rest start hvalue hname hstart ih
  | case18 opened rest start hvalue hname hstart ih =>
      cases k with
      | zero => exact ⟨_, _, [], .none _, fun _ => rfl⟩
      | succ k =>
          cases start with
          | value | firstItem => exact ih h k
          | name members => exact absurd rfl (hname members)
          | firstName => exact absurd rfl hstart
          | after v => exact absurd rfl (hvalue v)

/-! ## texts -/

/-- The tokens of a text that end in front of its last `left` characters. -/
def tokensBefore (left : Nat) (cs : List Char) : List Token :=
  match cs with
  | [] => []
  | c :: cs =>
    match _h : scanToken c cs with
    | none => []
    | some (token, rest) =>
      if left ≤ rest.length then token.toList ++ tokensBefore left rest else []
termination_by cs.length
decreasing_by exact length_scanToken_lt ‹_›

/-- How many arrays and objects are open between two parts of a text. -/
def openAt (before after : List Char) : Nat :=
  (tokensBefore after.length (before ++ after)).countP Token.isOpening
    - (tokensBefore after.length (before ++ after)).countP Token.isClosing

/-- In a text of tokens, those in front of a place are the first, and the first ones are those
in front of some place. -/
theorem tokensBefore_of_tokensFrom {seen found : List Token} {cs : List Char}
    (h : tokensFrom seen cs = some found) :
    ∃ tokens, found = seen.reverse ++ tokens ∧
      (∀ left, ∃ k, tokensBefore left cs = tokens.take k) ∧
      ∀ k, ∃ left, left ≤ cs.length ∧ tokensBefore left cs = tokens.take k := by
  fun_induction tokensFrom seen cs with
  | case1 seen =>
      cases h
      refine ⟨[], (List.append_nil _).symm, fun left => ⟨0, ?_⟩, fun k => ⟨0, Nat.le_refl _, ?_⟩⟩
      · rw [tokensBefore, List.take_nil]
      · rw [tokensBefore, List.take_nil]
  | case2 => contradiction
  | case3 seen c cs rest hscan ih =>
      obtain ⟨tokens, hfound, hbefore, hplace⟩ := ih h
      have hlt := length_scanToken_lt hscan
      refine ⟨tokens, hfound, fun left => ?_, fun k => ?_⟩
      · rw [tokensBefore, hscan]
        by_cases hleft : left ≤ rest.length
        · simpa [hleft] using hbefore left
        · exact ⟨0, by simp [hleft]⟩
      · obtain ⟨left, hleft, htake⟩ := hplace k
        refine ⟨left, by omega, ?_⟩
        rw [tokensBefore, hscan]
        simpa [hleft] using htake
  | case4 seen c cs token rest hscan ih =>
      obtain ⟨tokens, hfound, hbefore, hplace⟩ := ih h
      have hlt := length_scanToken_lt hscan
      refine ⟨token :: tokens, by simpa using hfound, fun left => ?_, fun k => ?_⟩
      · rw [tokensBefore, hscan]
        by_cases hleft : left ≤ rest.length
        · obtain ⟨k, hk⟩ := hbefore left
          exact ⟨k + 1, by simp [hleft, hk]⟩
        · exact ⟨0, by simp [hleft]⟩
      · cases k with
        | zero =>
            refine ⟨(c :: cs).length, Nat.le_refl _, ?_⟩
            rw [tokensBefore, hscan]
            simp only [if_neg (Nat.not_le.2 hlt), List.take_zero]
        | succ k =>
            obtain ⟨left, hleft, htake⟩ := hplace k
            refine ⟨left, by omega, ?_⟩
            rw [tokensBefore, hscan]
            simp [hleft, htake]

theorem tokensBefore_of_read {s : String} {v : Json} (h : read s = some v) :
    (∀ left, ∃ k, tokensBefore left s.toList = v.spell.take k) ∧
      ∀ k, ∃ left, left ≤ s.toList.length ∧ tokensBefore left s.toList = v.spell.take k := by
  obtain ⟨tokens, rfl, hbefore, hplace⟩ := tokensBefore_of_tokensFrom (read_eq_some_iff.1 h)
  exact ⟨hbefore, hplace⟩

/-- **What the reader keeps open** at a place is what is open there. -/
theorem openCount_eq_openAt {before after : List Char} {opened : List OpenValue}
    {expected : Expected}
    (h : ReadsTo (tokensBefore after.length (before ++ after)) opened expected) :
    openCount opened expected = openAt before after := by
  have hcount := h.countP_isOpening
  rw [openAt]
  omega

/-- At every place in the text of a value the reader stands somewhere. -/
theorem exists_readsTo {before after : List Char} {v : Json}
    (h : read (String.ofList (before ++ after)) = some v) :
    ∃ opened expected, ReadsTo (tokensBefore after.length (before ++ after)) opened expected := by
  obtain ⟨k, hk⟩ := (tokensBefore_of_read h).1 after.length
  rw [String.toList_ofList] at hk
  have hread : readFrom [] .value v.spell = some v := readFrom_eq_some_iff.2 rfl
  obtain ⟨opened, expected, hreads⟩ := exists_state_of_readFrom hread k
  exact ⟨opened, expected, hk ▸ hreads⟩

/-- **What is open in the text of a value**, at the place where it is most. -/
theorem isGreatest_openAt {s : String} {v : Json} (h : read s = some v) :
    IsGreatest {opened | ∃ before after, before ++ after = s.toList ∧ openAt before after = opened}
      v.nesting := by
  obtain ⟨hbefore, hplace⟩ := tokensBefore_of_read h
  have hspell := bracketed_spell v
  constructor
  · obtain ⟨k, hk⟩ := hspell.attained
    obtain ⟨left, hleft, htake⟩ := hplace k
    refine ⟨s.toList.take (s.toList.length - left), s.toList.drop (s.toList.length - left),
      List.take_append_drop _ _, ?_⟩
    have hlength : (s.toList.drop (s.toList.length - left)).length = left := by
      rw [List.length_drop]
      omega
    rw [openAt, hlength, List.take_append_drop, htake, hk]
    omega
  · rintro opened ⟨before, after, htext, rfl⟩
    obtain ⟨k, hk⟩ := hbefore after.length
    have hopened := hspell.opened_le k
    rw [openAt, htext, hk]
    omega

end QueryAudit.Json
