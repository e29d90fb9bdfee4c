import QueryAudit.Document.Load
import QueryAudit.Proofs.Json.Numeral
import QueryAudit.Proofs.Json.Spelling

/-!
# QueryAudit.Proofs.Json.Nesting

How deeply values nest.  `Json.nesting` is how many arrays and objects of a value stand in
one another at most, and the count of brackets in a text finds as many, whatever its strings
contain.

* `depthFrom_spell` — the count over the tokens of a value;
* `bracketDepthFrom_of_tokensFrom` — the count of a text is that of its tokens;
* `bracketDepth_of_read` — the count of the text of a value.
-/

namespace QueryAudit

namespace Json

/-! ## values -/

mutual

/-- How many arrays and objects stand in one another at most. -/
def nesting : Json → Nat
  | array items => nestingOfItems items + 1
  | object members => nestingOfMembers members + 1
  | _ => 0

/-- The deepest nesting of the values in a list. -/
def nestingOfItems : List Json → Nat
  | [] => 0
  | value :: rest => max value.nesting (nestingOfItems rest)

/-- The deepest nesting of the values of members. -/
def nestingOfMembers : List (Option String × Json) → Nat
  | [] => 0
  | (_, value) :: rest => max value.nesting (nestingOfMembers rest)

end

/-! ## tokens -/

/-- The largest number of open brackets, with `depth` of them open and at most `deepest`
before. -/
def depthFrom (depth deepest : Nat) : List Token → Nat
  | [] => deepest
  | token :: rest =>
    match token with
    | .openArray => depthFrom (depth + 1) (max deepest (depth + 1)) rest
    | .openObject => depthFrom (depth + 1) (max deepest (depth + 1)) rest
    | .closeArray => depthFrom (depth - 1) deepest rest
    | .closeObject => depthFrom (depth - 1) deepest rest
    | _ => depthFrom depth deepest rest

theorem depthFrom_comma (depth deepest : Nat) (tokens : List Token) :
    depthFrom depth deepest (.comma :: tokens) = depthFrom depth deepest tokens := rfl

theorem depthFrom_name (depth deepest : Nat) (name : Option String) (tokens : List Token) :
    depthFrom depth deepest (.string name :: .colon :: tokens) = depthFrom depth deepest tokens :=
  rfl

mutual

/-- **The tokens of a value** leave as many brackets open as they find. -/
theorem depthFrom_spell (v : Json) {depth deepest : Nat} (h : depth ≤ deepest)
    (tokens : List Token) :
    depthFrom depth deepest (v.spell ++ tokens)
      = depthFrom depth (max deepest (depth + v.nesting)) tokens := by
  -- a value without brackets adds nothing, as `depth` has been counted
  have hnone : deepest = max deepest (depth + 0) := by omega
  have hempty : max deepest (depth + 1) = max deepest (depth + (0 + 1)) := by omega
  match v with
  | null => exact congrArg (depthFrom depth · tokens) hnone
  | bool b => exact congrArg (depthFrom depth · tokens) hnone
  | number numeral => exact congrArg (depthFrom depth · tokens) hnone
  | string s => exact congrArg (depthFrom depth · tokens) hnone
  | array [] => exact congrArg (depthFrom depth · tokens) hempty
  | array (v :: rest) =>
      rw [spell, List.cons_append, List.append_assoc, depthFrom, depthFrom_spell v (by omega),
        depthFrom_spellItems rest (by omega), nesting, nestingOfItems]
      congr 1
      omega
  | object [] => exact congrArg (depthFrom depth · tokens) hempty
  | object ((name, v) :: rest) =>
      rw [spell, List.cons_append, List.cons_append, List.cons_append, List.append_assoc, depthFrom,
        depthFrom_name, depthFrom_spell v (by omega), depthFrom_spellMembers rest (by omega),
        nesting, nestingOfMembers]
      congr 1
      omega

theorem depthFrom_spellItems (items : List Json) {depth deepest : Nat} (h : depth + 1 ≤ deepest)
    (tokens : List Token) :
    depthFrom (depth + 1) deepest (spellItems items ++ tokens)
      = depthFrom depth (max deepest (depth + 1 + nestingOfItems items)) tokens := by
  match items with
  | [] =>
      have hnone : deepest = max deepest (depth + 1 + 0) := by omega
      exact congrArg (depthFrom depth · tokens) hnone
  | v :: rest =>
      rw [spellItems, List.cons_append, List.append_assoc, depthFrom_comma, depthFrom_spell v h,
        depthFrom_spellItems rest (by omega), nestingOfItems]
      congr 1
      omega

theorem depthFrom_spellMembers (members : List (Option String × Json)) {depth deepest : Nat}
    (h : depth + 1 ≤ deepest) (tokens : List Token) :
    depthFrom (depth + 1) deepest (spellMembers members ++ tokens)
      = depthFrom depth (max deepest (depth + 1 + nestingOfMembers members)) tokens := by
  match members with
  | [] =>
      have hnone : deepest = max deepest (depth + 1 + 0) := by omega
      exact congrArg (depthFrom depth · tokens) hnone
  | (name, v) :: rest =>
      rw [spellMembers, List.cons_append, List.cons_append, List.cons_append, List.append_assoc,
        depthFrom_comma, depthFrom_name, depthFrom_spell v h,
        depthFrom_spellMembers rest (by omega), nestingOfMembers]
      congr 1
      omega

end

end Json

namespace Document

open Json

/-! ## characters -/

/-- A character that is no bracket and no quote. -/
def isPlain (c : Char) : Bool :=
  c != '"' && c != '\x7b' && c != '[' && c != '\x7d' && c != ']'

theorem bracketDepthFrom_plain {cs : List Char} (h : ∀ c ∈ cs, isPlain c = true)
    (depth deepest : Nat) (rest : List Char) :
    bracketDepthFrom .outside depth deepest (cs ++ rest)
      = bracketDepthFrom .outside depth deepest rest := by
  induction cs with
  | nil => rfl
  | cons c cs ih =>
      have hc : isPlain c = true := h c List.mem_cons_self
      simp only [isPlain, Bool.and_eq_true, bne_iff_ne, ne_eq] at hc
      have hrest := ih fun d hd => h d (List.mem_cons_of_mem c hd)
      simpa [bracketDepthFrom, hc] using hrest

/-! ## strings -/

theorem ne_of_isSome_hexDigit? {c : Char} (h : (hexDigit? c).isSome = true) :
    c ≠ '\\' ∧ c ≠ '"' := by
  constructor <;> (rintro rfl; revert h; decide)

theorem isSome_of_hexUnit? {a b c d : Char} {code : Nat} (h : hexUnit? a b c d = some code) :
    (hexDigit? a).isSome = true ∧ (hexDigit? b).isSome = true ∧ (hexDigit? c).isSome = true ∧
      (hexDigit? d).isSome = true := by
  rw [hexUnit?] at h
  split at h
  · simp_all
  · contradiction

/-- A string is passed over, whatever it contains and whatever follows it. -/
theorem bracketDepthFrom_scanString {seen parts : List StringPart} {cs rest : List Char}
    (h : scanString seen cs = some (parts, rest)) :
    ∃ used, cs = used ++ rest ∧ ∀ depth deepest tail,
      bracketDepthFrom .inString depth deepest (used ++ tail)
        = bracketDepthFrom .outside depth deepest tail := by
  fun_induction scanString seen cs with
  | case1 =>
      cases h
      exact ⟨['"'], rfl, fun _ _ _ => rfl⟩
  | case2 seen a b c d cs code hcode ih =>
      obtain ⟨used, rfl, hused⟩ := ih h
      obtain ⟨ha, hb, hc, hd⟩ := isSome_of_hexUnit? hcode
      refine ⟨'\\' :: 'u' :: a :: b :: c :: d :: used, rfl, fun depth deepest tail => ?_⟩
      rw [← hused depth deepest tail]
      simp [bracketDepthFrom, ne_of_isSome_hexDigit? ha, ne_of_isSome_hexDigit? hb,
        ne_of_isSome_hexDigit? hc, ne_of_isSome_hexDigit? hd]
  | case3 | case5 | case6 | case8 => contradiction
  | case4 seen c cs _ e he ih =>
      obtain ⟨used, rfl, hused⟩ := ih h
      exact ⟨'\\' :: c :: used, rfl, hused⟩
  | case7 seen c cs hquote _ _ hc ih =>
      obtain ⟨used, rfl, hused⟩ := ih h
      have hbackslash : c ≠ '\\' := by
        rintro rfl
        simp at hc
      refine ⟨c :: used, rfl, fun depth deepest tail => ?_⟩
      rw [List.cons_append, bracketDepthFrom, if_neg hbackslash, if_neg hquote, hused]

/-! ## numerals -/

theorem isPlain_of_isNumeralChar {c : Char} (h : isNumeralChar c = true) : isPlain c = true := by
  have hne : ∀ d, isNumeralChar d = false → c ≠ d := by
    rintro d hd rfl
    rw [h] at hd
    contradiction
  simp [isPlain, hne '"' rfl, hne '\x7b' rfl, hne '[' rfl, hne '\x7d' rfl, hne ']' rfl]

/-! ## tokens of a text -/

theorem isPlain_of_isSpace {c : Char} (h : isSpace c = true) : isPlain c = true := by
  simp only [isSpace, Bool.or_eq_true, beq_iff_eq] at h
  rcases h with ((rfl | rfl) | rfl) | rfl <;> rfl

/-- What some characters do to the count, whatever follows them, told by the token that they
are; a space is none. -/
def Counts (used : List Char) (token : Option Token) : Prop :=
  ∀ depth deepest, ∃ depth' deepest',
    (∀ rest, bracketDepthFrom .outside depth deepest (used ++ rest)
      = bracketDepthFrom .outside depth' deepest' rest) ∧
    ∀ tokens, depthFrom depth deepest (token.toList ++ tokens) = depthFrom depth' deepest' tokens

/-- Characters without brackets and quotes, and a token that is no bracket. -/
theorem counts_plain {used : List Char} (h : ∀ c ∈ used, isPlain c = true) {token : Option Token}
    (htoken : ∀ depth deepest tokens,
      depthFrom depth deepest (token.toList ++ tokens) = depthFrom depth deepest tokens) :
    Counts used token :=
  fun depth deepest => ⟨depth, deepest, bracketDepthFrom_plain h depth deepest,
    htoken depth deepest⟩

theorem counts_punctuation {c : Char} {token : Token} (h : punctuation? c = some token) :
    Counts [c] (some token) := by
  unfold punctuation? at h
  repeat' split at h
  any_goals contradiction
  all_goals
    intro depth deepest
    cases h
    subst_vars
    exact ⟨_, _, fun _ => rfl, fun _ => rfl⟩

theorem counts_word {c : Char} {tail : List Char} {token : Token}
    (h : Json.word? c = some (tail, token)) : Counts (c :: tail) (some token) := by
  unfold Json.word? at h
  repeat' split at h
  any_goals contradiction
  all_goals
    cases h
    subst_vars
    exact counts_plain (by simp [isPlain]) fun _ _ _ => rfl

theorem counts_scanQuoted {cs rest : List Char} {token : Option Token}
    (h : scanQuoted cs = some (token, rest)) :
    ∃ used, '"' :: cs = used ++ rest ∧ Counts used token := by
  unfold scanQuoted at h
  split at h
  · contradiction
  · rename_i hscan
    cases h
    obtain ⟨used, rfl, hused⟩ := bracketDepthFrom_scanString hscan
    exact ⟨'"' :: used, rfl, fun depth deepest =>
      ⟨depth, deepest, hused depth deepest, fun _ => rfl⟩⟩

theorem counts_scanNumber {c : Char} {cs rest : List Char} {token : Option Token}
    (h : scanNumber c cs = some (token, rest)) :
    ∃ used, c :: cs = used ++ rest ∧ Counts used token := by
  unfold scanNumber at h
  split at h
  · contradiction
  · rename_i hscan
    have hpasses : Passes (c :: cs) rest := by
      split at hscan
      · rename_i hminus
        cases h
        exact .cons (hminus ▸ rfl) (passes_of_scanNumeral hscan)
      · cases h
        exact passes_of_scanNumeral hscan
    cases h
    obtain ⟨used, hcs, hused⟩ := hpasses
    exact ⟨used, hcs, counts_plain (fun d hd => isPlain_of_isNumeralChar (hused d hd))
      fun _ _ _ => rfl⟩

/-- A token or a space counts as much as its characters. -/
theorem counts_scanToken {c : Char} {cs rest : List Char} {token : Option Token}
    (h : scanToken c cs = some (token, rest)) :
    ∃ used, c :: cs = used ++ rest ∧ Counts used token := by
  unfold scanToken at h
  split at h
  · rename_i hspace
    cases h
    exact ⟨[c], rfl, counts_plain (by simpa using isPlain_of_isSpace hspace) fun _ _ _ => rfl⟩
  · split at h
    · rename_i hpunctuation
      cases h
      exact ⟨[c], rfl, counts_punctuation hpunctuation⟩
    · split at h
      · rename_i hword
        split at h
        · rename_i hstarts
          cases h
          obtain ⟨rest, rfl⟩ := List.isPrefixOf_iff_prefix.1 hstarts
          rw [List.drop_left]
          exact ⟨c :: _, rfl, counts_word hword⟩
        · contradiction
      · split at h
        · rename_i hquote
          exact hquote ▸ counts_scanQuoted h
        · exact counts_scanNumber h

theorem Counts.append {used rest : List Char} {token : Option Token} (h : Counts used token)
    {tokens : List Token}
    (hrest : ∀ depth deepest,
      bracketDepthFrom .outside depth deepest rest = depthFrom depth deepest tokens)
    (depth deepest : Nat) :
    bracketDepthFrom .outside depth deepest (used ++ rest)
      = depthFrom depth deepest (token.toList ++ tokens) := by
  obtain ⟨depth', deepest', hchars, htoken⟩ := h depth deepest
  rw [hchars, hrest, htoken]

/-- **The count of a text** is the count of its tokens. -/
theorem bracketDepthFrom_of_tokensFrom {seen found : List Token} {cs : List Char}
    (h : tokensFrom seen cs = some found) :
    ∃ tokens, found = seen.reverse ++ tokens ∧ ∀ depth deepest,
      bracketDepthFrom .outside depth deepest cs = depthFrom depth deepest tokens := by
  fun_induction tokensFrom seen cs with
  | case1 seen =>
      cases h
      exact ⟨[], (List.append_nil _).symm, fun _ _ => rfl⟩
  | case2 => contradiction
  | case3 seen c cs rest hscan ih =>
      obtain ⟨used, hcs, hused⟩ := counts_scanToken hscan
      obtain ⟨tokens, hfound, htokens⟩ := ih h
      exact ⟨tokens, hfound, hcs ▸ hused.append htokens⟩
  | case4 seen c cs token rest hscan ih =>
      obtain ⟨used, hcs, hused⟩ := counts_scanToken hscan
      obtain ⟨tokens, hfound, htokens⟩ := ih h
      exact ⟨token :: tokens, by simpa using hfound, hcs ▸ hused.append htokens⟩

/-- **The count of brackets** in the text of a value is how deeply the value nests. -/
theorem bracketDepth_of_read {s : String} {v : Json} (h : Json.read s = some v) :
    bracketDepth s = v.nesting := by
  obtain ⟨tokens, htokens, hcount⟩ := bracketDepthFrom_of_tokensFrom (read_eq_some_iff.1 h)
  rw [bracketDepth, hcount, ← List.append_nil tokens]
  have hspell := depthFrom_spell v (Nat.le_refl 0) []
  rw [htokens] at hspell
  refine hspell.trans ?_
  simp [depthFrom]

end Document

end QueryAudit
