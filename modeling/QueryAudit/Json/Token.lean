import QueryAudit.Text.Cut

/-!
# QueryAudit.Json.Token

The tokens of a JSON text.  A string token has its escapes resolved; a pair of
escapes that are the halves of a surrogate pair is one character, and a half
without its partner leaves the string without characters.

* `length_scanToken_lt` — a token or space uses up characters.
-/

namespace QueryAudit.Json

/-- The smallest parts of a JSON text. -/
inductive Token where
  | openArray
  | closeArray
  | openObject
  | closeObject
  | colon
  | comma
  | null
  | bool (b : Bool)
  | number (numeral : String)
  | string (s : Option String)
deriving DecidableEq, Repr

/-! ## strings -/

/-- A part of a string: a character, or a 16-bit unit given by its number. -/
inductive StringPart where
  | char (c : Char)
  | unit (code : Nat)
deriving DecidableEq, Repr

/-- The value of a hexadecimal digit. -/
def hexDigit? (c : Char) : Option Nat :=
  if c.isDigit then some (c.toNat - '0'.toNat)
  else if 'a' ≤ c && c ≤ 'f' then some (c.toNat - 'a'.toNat + 10)
  else if 'A' ≤ c && c ≤ 'F' then some (c.toNat - 'A'.toNat + 10)
  else none

/-- The number that four hexadecimal digits spell. -/
def hexUnit? (a b c d : Char) : Option Nat :=
  match hexDigit? a, hexDigit? b, hexDigit? c, hexDigit? d with
  | some a, some b, some c, some d => some (((a * 16 + b) * 16 + c) * 16 + d)
  | _, _, _, _ => none

/-- The character that a backslash and one more character stand for. -/
def escaped? (c : Char) : Option Char :=
  if c = '"' || c = '\\' || c = '/' then some c
  else if c = 'b' then some '\x08'
  else if c = 'f' then some '\x0c'
  else if c = 'n' then some '\n'
  else if c = 'r' then some '\r'
  else if c = 't' then some '\t'
  else none

/-- Read up to the closing quote: the parts, last first, and what follows.
Control characters have to be escaped. -/
def scanString (seen : List StringPart) : List Char → Option (List StringPart × List Char)
  | '"' :: rest => some (seen, rest)
  | '\\' :: 'u' :: a :: b :: c :: d :: rest =>
    match hexUnit? a b c d with
    | some code => scanString (.unit code :: seen) rest
    | none => none
  | '\\' :: c :: rest =>
    match escaped? c with
    | some e => scanString (.char e :: seen) rest
    | none => none
  | c :: rest => if c.toNat < 0x20 || c = '\\' then none else scanString (.char c :: seen) rest
  | [] => none

/-- Whether a unit is the first half of a surrogate pair. -/
def isHighSurrogate (code : Nat) : Bool := 0xD800 ≤ code && code ≤ 0xDBFF

/-- Whether a unit is the second half of a surrogate pair. -/
def isLowSurrogate (code : Nat) : Bool := 0xDC00 ≤ code && code ≤ 0xDFFF

/-- The characters of a string behind those `seen`, last first. -/
def joinParts (seen : List Char) : List StringPart → Option (List Char)
  | [] => some seen.reverse
  | .char c :: rest => joinParts (c :: seen) rest
  | .unit code :: rest =>
    if isLowSurrogate code then none
    else if isHighSurrogate code then
      match rest with
      | .unit low :: rest =>
        if isLowSurrogate low then
          joinParts (Char.ofNat (0x10000 + (code - 0xD800) * 0x400 + (low - 0xDC00)) :: seen) rest
        else none
      | _ => none
    else joinParts (Char.ofNat code :: seen) rest

/-! ## numbers -/

/-- Read `.` and at least one digit, if there is a point. -/
def scanFraction : List Char → Option (List Char × List Char)
  | '.' :: rest =>
    let digits := rest.takeWhile Char.isDigit
    if digits.isEmpty then none else some ('.' :: digits, rest.dropWhile Char.isDigit)
  | rest => some ([], rest)

/-- Read the digits of an exponent, at least one. -/
def scanPower (mark : List Char) (rest : List Char) : Option (List Char × List Char) :=
  let digits := rest.takeWhile Char.isDigit
  if digits.isEmpty then none else some (mark ++ digits, rest.dropWhile Char.isDigit)

/-- Read `e` or `E`, an optional sign and at least one digit, if there is an `e`. -/
def scanExponent : List Char → Option (List Char × List Char)
  | [] => some ([], [])
  | e :: rest =>
    if e = 'e' || e = 'E' then
      match rest with
      | [] => none
      | sign :: digits =>
        if sign = '+' || sign = '-' then scanPower [e, sign] digits else scanPower [e] rest
    else some ([], e :: rest)

/-- The digits before the point: `0`, or a run of digits that starts with another. -/
def wholeDigits : List Char → List Char
  | [] => []
  | c :: rest => if c = '0' then ['0'] else (c :: rest).takeWhile Char.isDigit

/-- Read an unsigned numeral behind `sign`. -/
def scanNumeral (sign : List Char) (cs : List Char) : Option (String × List Char) :=
  if (wholeDigits cs).isEmpty then none
  else
    match scanFraction (cs.drop (wholeDigits cs).length) with
    | none => none
    | some (fraction, rest) =>
      match scanExponent rest with
      | none => none
      | some (exponent, rest) =>
        some (String.ofList (sign ++ wholeDigits cs ++ fraction ++ exponent), rest)

/-! ## tokens -/

/-- The white space between tokens. -/
def isSpace (c : Char) : Bool := c == ' ' || c == '\t' || c == '\n' || c == '\r'

/-- The token that one character is. -/
def punctuation? (c : Char) : Option Token :=
  if c = '[' then some .openArray
  else if c = ']' then some .closeArray
  else if c = '\x7b' then some .openObject
  else if c = '\x7d' then some .closeObject
  else if c = ':' then some .colon
  else if c = ',' then some .comma
  else none

/-- The word that starts with a character: what follows its first letter, and
the token that it is. -/
def word? (c : Char) : Option (List Char × Token) :=
  if c = 'n' then some (['u', 'l', 'l'], .null)
  else if c = 't' then some (['r', 'u', 'e'], .bool true)
  else if c = 'f' then some (['a', 'l', 's', 'e'], .bool false)
  else none

/-- Read a string behind its opening quote. -/
def scanQuoted (rest : List Char) : Option (Option Token × List Char) :=
  match scanString [] rest with
  | none => none
  | some (parts, rest) =>
    some (some (.string ((joinParts [] parts.reverse).map String.ofList)), rest)

/-- Read a number that starts with `c`. -/
def scanNumber (c : Char) (rest : List Char) : Option (Option Token × List Char) :=
  match if c = '-' then scanNumeral ['-'] rest else scanNumeral [] (c :: rest) with
  | none => none
  | some (numeral, rest) => some (some (.number numeral), rest)

/-- Read one token or one space that starts with `c`. -/
def scanToken (c : Char) (rest : List Char) : Option (Option Token × List Char) :=
  if isSpace c then some (none, rest)
  else
    match punctuation? c with
    | some token => some (some token, rest)
    | none =>
      match word? c with
      | some (tail, token) =>
        if tail.isPrefixOf rest then some (some token, rest.drop tail.length) else none
      | none => if c = '"' then scanQuoted rest else scanNumber c rest

theorem length_scanString_le {seen parts : List StringPart} {cs rest : List Char}
    (h : scanString seen cs = some (parts, rest)) : rest.length ≤ cs.length := by
  fun_induction scanString seen cs <;> simp_all <;> omega

theorem length_scanFraction_le {cs fraction rest : List Char}
    (h : scanFraction cs = some (fraction, rest)) : rest.length ≤ cs.length := by
  unfold scanFraction at h
  split at h
  · rename_i tail
    have := length_dropWhile_le Char.isDigit tail
    dsimp only at h
    split at h
    · simp at h
    · simp only [Option.some.injEq, Prod.mk.injEq] at h
      obtain ⟨-, rfl⟩ := h
      simp only [List.length_cons]
      omega
  · simp_all

theorem length_scanPower_le {mark cs power rest : List Char}
    (h : scanPower mark cs = some (power, rest)) : rest.length ≤ cs.length := by
  have := length_dropWhile_le Char.isDigit cs
  simp only [scanPower] at h
  split at h
  · simp at h
  · simp only [Option.some.injEq, Prod.mk.injEq] at h
    obtain ⟨-, rfl⟩ := h
    exact this

theorem length_scanExponent_le {cs exponent rest : List Char}
    (h : scanExponent cs = some (exponent, rest)) : rest.length ≤ cs.length := by
  cases cs with
  | nil => simp_all [scanExponent]
  | cons e tail =>
    simp only [scanExponent] at h
    split at h
    · cases tail with
      | nil => simp at h
      | cons sign digits =>
        dsimp only at h
        split at h
        all_goals
          have := length_scanPower_le h
          simp only [List.length_cons] at this ⊢
          omega
    · simp only [Option.some.injEq, Prod.mk.injEq] at h
      simp [← h.2]

/-- A numeral uses up characters. -/
theorem length_scanNumeral_lt {sign cs rest : List Char} {numeral : String}
    (h : scanNumeral sign cs = some (numeral, rest)) : rest.length < cs.length := by
  unfold scanNumeral at h
  split at h
  · simp at h
  · rename_i hw
    split at h
    · simp at h
    · rename_i hf
      split at h
      · simp at h
      · rename_i he
        simp only [Option.some.injEq, Prod.mk.injEq] at h
        obtain ⟨-, rfl⟩ := h
        have h1 := length_scanFraction_le hf
        have h2 := length_scanExponent_le he
        rw [List.length_drop] at h1
        have h3 : 0 < (wholeDigits cs).length :=
          List.length_pos_iff.2 fun e => hw (by simp [e])
        have h4 : 0 < cs.length := List.length_pos_iff.2 fun e => by
          subst e; simp [wholeDigits] at hw
        omega

theorem length_scanQuoted_le {cs rest : List Char} {token : Option Token}
    (h : scanQuoted cs = some (token, rest)) : rest.length ≤ cs.length := by
  unfold scanQuoted at h
  split at h
  · simp at h
  · simp only [Option.some.injEq, Prod.mk.injEq] at h
    obtain ⟨-, rfl⟩ := h
    exact length_scanString_le ‹_›

theorem length_scanNumber_lt {c : Char} {cs rest : List Char} {token : Option Token}
    (h : scanNumber c cs = some (token, rest)) : rest.length < (c :: cs).length := by
  unfold scanNumber at h
  split at h
  · simp at h
  · rename_i hs
    simp only [Option.some.injEq, Prod.mk.injEq] at h
    obtain ⟨-, rfl⟩ := h
    split at hs
    · have := length_scanNumeral_lt hs
      simp only [List.length_cons]
      omega
    · exact length_scanNumeral_lt hs

/-- A token or a space uses up characters. -/
theorem length_scanToken_lt {c : Char} {cs rest : List Char} {token : Option Token}
    (h : scanToken c cs = some (token, rest)) : rest.length < (c :: cs).length := by
  have here : cs.length < (c :: cs).length := by simp
  unfold scanToken at h
  repeat' split at h
  all_goals try simp only [Option.some.injEq, Prod.mk.injEq, reduceCtorEq] at h
  · exact h.2 ▸ here
  · exact h.2 ▸ here
  · rw [← h.2, List.length_drop]
    omega
  · have := length_scanQuoted_le h
    omega
  · exact length_scanNumber_lt h

/-- The tokens of a text behind those `seen`, last first. -/
def tokensFrom (seen : List Token) (cs : List Char) : Option (List Token) :=
  match cs with
  | [] => some seen.reverse
  | c :: cs =>
    match _h : scanToken c cs with
    | none => none
    | some (none, rest) => tokensFrom seen rest
    | some (some token, rest) => tokensFrom (token :: seen) rest
termination_by cs.length
decreasing_by all_goals exact length_scanToken_lt ‹_›

/-- The tokens of a JSON text, or `none` when some part of it is no token. -/
def tokens (s : String) : Option (List Token) := tokensFrom [] s.toList

end QueryAudit.Json
