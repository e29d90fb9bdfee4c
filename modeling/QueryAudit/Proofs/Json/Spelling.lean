import QueryAudit.Json.Reader

/-!
# QueryAudit.Proofs.Json.Spelling

Values and their tokens.  A value keeps how its text spells it, so that it has one list of
tokens, and reading it is the inverse.

* `readFrom_spell` — the tokens of a value are read as that value;
* `eq_spell_of_readFrom` — what is read as a value are its tokens;
* `read_eq_some_iff` — a text is a value exactly when its tokens are those of the value.
-/

namespace QueryAudit.Json

/-! ## the tokens of a value -/

mutual

/-- The tokens of a value. -/
def spell : Json → List Token
  | null => [.null]
  | bool b => [.bool b]
  | number numeral => [.number numeral]
  | string s => [.string s]
  | array [] => [.openArray, .closeArray]
  | array (value :: rest) => .openArray :: (value.spell ++ spellItems rest)
  | object [] => [.openObject, .closeObject]
  | object ((name, value) :: rest) =>
    .openObject :: .string name :: .colon :: (value.spell ++ spellMembers rest)

/-- The tokens of the items after the first, and of the bracket that closes the array. -/
def spellItems : List Json → List Token
  | [] => [.closeArray]
  | value :: rest => .comma :: (value.spell ++ spellItems rest)

/-- The tokens of the members after the first, and of the bracket that closes the object. -/
def spellMembers : List (Option String × Json) → List Token
  | [] => [.closeObject]
  | (name, value) :: rest => .comma :: .string name :: .colon :: (value.spell ++ spellMembers rest)

end

/-! ## the tokens are read -/

mutual

/-- **The tokens of a value** are read as that value. -/
theorem readFrom_spell (v : Json) (opened : List OpenValue) {expected : Expected}
    (h : expected = .value ∨ expected = .firstItem) (tokens : List Token) :
    readFrom opened expected (v.spell ++ tokens) = readFrom opened (.after v) tokens := by
  match v with
  | null => rcases h with rfl | rfl <;> rfl
  | bool b => rcases h with rfl | rfl <;> rfl
  | number numeral => rcases h with rfl | rfl <;> rfl
  | string s => rcases h with rfl | rfl <;> rfl
  | array [] => rcases h with rfl | rfl <;> rfl
  | array (v :: rest) =>
      have hopen : readFrom opened expected ((array (v :: rest)).spell ++ tokens)
          = readFrom (.array [] :: opened) .firstItem (v.spell ++ (spellItems rest ++ tokens)) := by
        rw [spell, List.cons_append, List.append_assoc]
        rcases h with rfl | rfl <;> rfl
      rw [hopen, readFrom_spell v _ (Or.inr rfl), readFrom_spellItems]
      rfl
  | object [] => rcases h with rfl | rfl <;> rfl
  | object ((name, v) :: rest) =>
      have hopen : readFrom opened expected ((object ((name, v) :: rest)).spell ++ tokens)
          = readFrom (.object [] name :: opened) .value
            (v.spell ++ (spellMembers rest ++ tokens)) := by
        rw [spell, List.cons_append, List.cons_append, List.cons_append, List.append_assoc]
        rcases h with rfl | rfl <;> rfl
      rw [hopen, readFrom_spell v _ (Or.inl rfl), readFrom_spellMembers]
      rfl

theorem readFrom_spellItems (items : List Json) (seen : List Json) (outer : List OpenValue)
    (v : Json) (tokens : List Token) :
    readFrom (.array seen :: outer) (.after v) (spellItems items ++ tokens)
      = readFrom outer (.after (.array (seen.reverse ++ v :: items))) tokens := by
  match items with
  | [] =>
      have hclose : readFrom (.array seen :: outer) (.after v) (spellItems [] ++ tokens)
          = readFrom outer (.after (.array (v :: seen).reverse)) tokens := rfl
      rw [hclose, List.reverse_cons]
  | w :: rest =>
      have hcomma : readFrom (.array seen :: outer) (.after v) (spellItems (w :: rest) ++ tokens)
          = readFrom (.array (v :: seen) :: outer) .value
            (w.spell ++ (spellItems rest ++ tokens)) := by
        rw [spellItems, List.cons_append, List.append_assoc]
        rfl
      rw [hcomma, readFrom_spell w _ (Or.inl rfl), readFrom_spellItems, List.reverse_cons,
        List.append_assoc]
      rfl

theorem readFrom_spellMembers (members seen : List (Option String × Json))
    (outer : List OpenValue) (name : Option String) (v : Json) (tokens : List Token) :
    readFrom (.object seen name :: outer) (.after v) (spellMembers members ++ tokens)
      = readFrom outer (.after (.object (seen.reverse ++ (name, v) :: members))) tokens := by
  match members with
  | [] =>
      have hclose : readFrom (.object seen name :: outer) (.after v) (spellMembers [] ++ tokens)
          = readFrom outer (.after (.object ((name, v) :: seen).reverse)) tokens := rfl
      rw [hclose, List.reverse_cons]
  | (next, w) :: rest =>
      have hcomma : readFrom (.object seen name :: outer) (.after v)
            (spellMembers ((next, w) :: rest) ++ tokens)
          = readFrom (.object ((name, v) :: seen) next :: outer) .value
            (w.spell ++ (spellMembers rest ++ tokens)) := by
        rw [spellMembers, List.cons_append, List.cons_append, List.cons_append, List.append_assoc]
        rfl
      rw [hcomma, readFrom_spell w _ (Or.inl rfl), readFrom_spellMembers, List.reverse_cons,
        List.append_assoc]
      rfl

end

/-! ## what is read are the tokens -/

/-- The items in front of another, each with the comma behind it. -/
def spellBefore (items : List Json) : List Token := items.flatMap fun v => v.spell ++ [.comma]

/-- The members in front of another, each with the comma behind it. -/
def spellMembersBefore (members : List (Option String × Json)) : List Token :=
  members.flatMap fun m => .string m.1 :: .colon :: (m.2.spell ++ [.comma])

/-- The tokens that have been read of an open array or object. -/
def OpenValue.spell : OpenValue → List Token
  | .array items => .openArray :: spellBefore items.reverse
  | .object members name =>
    .openObject :: (spellMembersBefore members.reverse ++ [.string name, .colon])

/-- The tokens that have been read of what is open, the outermost first. -/
def spellOpened : List OpenValue → List Token
  | [] => []
  | o :: outer => spellOpened outer ++ o.spell

/-- The tokens that have been read since the last of these. -/
def Expected.spell : Expected → List Token
  | .value => []
  | .firstItem => []
  | .name members => .openObject :: spellMembersBefore members.reverse
  | .firstName => [.openObject]
  | .after v => v.spell

/-- The tokens that have been read in all. -/
def spellRead (opened : List OpenValue) (expected : Expected) : List Token :=
  spellOpened opened ++ expected.spell

theorem spell_array_append (items : List Json) (v : Json) :
    (array (items ++ [v])).spell
      = .openArray :: (spellBefore items ++ (v.spell ++ [.closeArray])) := by
  have hitems : ∀ (items : List Json) (first : Json), first.spell ++ spellItems (items ++ [v])
      = spellBefore (first :: items) ++ (v.spell ++ [.closeArray]) := by
    intro items
    induction items with
    | nil => intro first; simp [spellItems, spellBefore]
    | cons next items ih =>
        intro first
        rw [List.cons_append, spellItems, ih next]
        simp [spellBefore]
  cases items with
  | nil => rfl
  | cons first items => rw [List.cons_append, spell, hitems]

theorem spell_object_append (members : List (Option String × Json)) (m : Option String × Json) :
    (object (members ++ [m])).spell
      = .openObject :: (spellMembersBefore members
        ++ .string m.1 :: .colon :: (m.2.spell ++ [.closeObject])) := by
  have hmembers : ∀ (members : List (Option String × Json)) (first : Option String × Json),
      .string first.1 :: .colon :: (first.2.spell ++ spellMembers (members ++ [m]))
        = spellMembersBefore (first :: members)
          ++ .string m.1 :: .colon :: (m.2.spell ++ [.closeObject]) := by
    intro members
    induction members with
    | nil => intro first; simp [spellMembers, spellMembersBefore]
    | cons next members ih =>
        intro first
        rw [List.cons_append, spellMembers, ih next]
        simp [spellMembersBefore]
  cases members with
  | nil => rfl
  | cons first members => rw [List.cons_append, spell, hmembers]

/-- Before a value no token has been read behind what is open. -/
theorem spellRead_of_start {expected : Expected} (hvalue : ∀ v, expected = .after v → False)
    (hname : ∀ members, expected = .name members → False) (hfirst : expected = .firstName → False)
    (opened : List OpenValue) : spellRead opened expected = spellOpened opened := by
  cases expected with
  | value | firstItem => exact List.append_nil _
  | name members => exact absurd rfl (hname members)
  | firstName => exact absurd rfl hfirst
  | after v => exact absurd rfl (hvalue v)

/-- **What is read** as a value are its tokens. -/
theorem eq_spell_of_readFrom {opened : List OpenValue} {expected : Expected} {tokens : List Token}
    {v : Json}
    (hfirst : ∀ items outer, expected = .firstItem → opened = .array items :: outer → items = [])
    (h : readFrom opened expected tokens = some v) :
    spellRead opened expected ++ tokens = v.spell := by
  fun_induction readFrom opened expected tokens with
  | case1 =>
      cases h
      simp [spellRead, spellOpened, Expected.spell]
  | case2 | case7 | case9 | case12 | case20 | case21 => contradiction
  | case3 rest v items outer ih =>
      rw [← ih nofun h]
      simp [spellRead, spellOpened, Expected.spell, OpenValue.spell, spellBefore]
  | case4 rest v items outer ih =>
      have hspell := spell_array_append items.reverse v
      rw [← ih nofun h, List.reverse_cons]
      simp [spellRead, spellOpened, Expected.spell, OpenValue.spell, hspell]
  | case5 rest v members name outer ih =>
      rw [← ih nofun h]
      simp [spellRead, spellOpened, Expected.spell, OpenValue.spell, spellMembersBefore]
  | case6 rest v members name outer ih =>
      have hspell := spell_object_append members.reverse (name, v)
      rw [← ih nofun h, List.reverse_cons]
      simp [spellRead, spellOpened, Expected.spell, OpenValue.spell, hspell]
  | case8 opened members name rest ih =>
      rw [← ih nofun h]
      simp [spellRead, spellOpened, Expected.spell, OpenValue.spell]
  | case10 opened name rest ih =>
      rw [← ih nofun h]
      simp [spellRead, spellOpened, Expected.spell, OpenValue.spell, spellMembersBefore]
  | case11 opened rest ih =>
      rw [← ih nofun h]
      simp [spellRead, Expected.spell, spell]
  | case13 opened rest start hvalue hname hstart ih
  | case14 opened rest start hvalue hname hstart b ih
  | case15 opened rest start hvalue hname hstart numeral ih
  | case16 opened rest start hvalue hname hstart s ih =>
      rw [← ih nofun h, spellRead_of_start hvalue hname hstart]
      simp [spellRead, Expected.spell, spell]
  | case17 opened rest start hvalue hname hstart ih =>
      rw [← ih (by simp) h, spellRead_of_start hvalue hname hstart]
      simp [spellRead, spellOpened, OpenValue.spell, Expected.spell, spellBefore]
  | case18 opened rest start hvalue hname hstart ih =>
      rw [← ih nofun h, spellRead_of_start hvalue hname hstart]
      simp [spellRead, Expected.spell]
  | case19 rest items outer _ _ _ ih =>
      have hitems : items = [] := hfirst items outer rfl rfl
      rw [← ih nofun h, hitems]
      simp [spellRead, spellOpened, OpenValue.spell, Expected.spell, spellBefore, spell]

/-- **Reading tokens** as a value: exactly the tokens of that value are. -/
theorem readFrom_eq_some_iff {tokens : List Token} {v : Json} :
    readFrom [] .value tokens = some v ↔ tokens = v.spell := by
  constructor
  · exact eq_spell_of_readFrom nofun
  · rintro rfl
    have hread := readFrom_spell v [] (Or.inl rfl) []
    rw [List.append_nil] at hread
    exact hread

/-- **A text** is a value exactly when its tokens are those of the value. -/
theorem read_eq_some_iff {s : String} {v : Json} : read s = some v ↔ tokens s = some v.spell := by
  rw [read]
  cases tokens s with
  | none => simp
  | some found => simp [readFrom_eq_some_iff]

end QueryAudit.Json
