import QueryAudit.Text.Blank
import QueryAudit.Text.Cut
import QueryAudit.Text.Decimal
import QueryAudit.Text.Quoted
import QueryAudit.Tree.Basic

/-!
# QueryAudit.Notation.Lexeme

The notation of trees: a node is written `(kind@line:column children)`, a leaf
is a quoted text with an optional `@line:column`, and `field=` labels the
element that follows it.  White space and comments from `;` to the end of the
line separate lexemes.

This module cuts a text into lexemes.  Each lexeme comes with its offset, the
number of bytes before it in the UTF-8 form of the text.

* `length_scan_lt` — scanning one lexeme, space or comment uses up characters.
-/

namespace QueryAudit.Notation

/-- The smallest parts of the notation. -/
inductive Lexeme where
  /-- The opening bracket of a node. -/
  | opening
  /-- The closing bracket of a node. -/
  | closing
  /-- The sign between a field label and its element. -/
  | equals
  /-- A run of characters that are no delimiters. -/
  | atom (name : String)
  /-- A quoted text, with its position when it has one. -/
  | text (text : String) (position : Option Position)
deriving DecidableEq, Repr

/-- A lexeme as messages name it. -/
def Lexeme.describe : Lexeme → String
  | .opening => "'('"
  | .closing => "')'"
  | .equals => "'='"
  | .atom name => "'" ++ name ++ "'"
  | .text s _ => "string " ++ quoted s

/-- Why a text is not the notation of a tree.  Offsets count bytes. -/
inductive ReadError where
  /-- A quote at `offset` has no partner. -/
  | unterminatedText (offset : Nat)
  /-- What follows an `@` is no position. -/
  | invalidPosition (text : String) (offset : Nat)
  /-- A lexeme stands where none of its kind can. -/
  | unexpected (found : Lexeme) (offset : Nat)
  /-- The text ends inside the tree, or before it. -/
  | unexpectedEnd
  /-- The tree is a leaf. -/
  | rootNotNode
  /-- More than `maxDepth` nodes would be open. -/
  | tooDeep (offset : Nat)
deriving DecidableEq, Repr

/-- The wording of a failure. -/
def ReadError.message : ReadError → String
  | .unterminatedText offset => s!"unterminated string starting at offset {offset}"
  | .invalidPosition text offset => s!"invalid position '{text}' at offset {offset}"
  | .unexpected found offset => "unexpected " ++ found.describe ++ s!" at offset {offset}"
  | .unexpectedEnd => "unexpected end of input"
  | .rootNotNode => "the root element must be a node"
  | .tooDeep offset => s!"nodes nest deeper than {maxDepth} levels at offset {offset}"

/-- Whether a character ends an atom. -/
def isDelimiter (c : Char) : Bool :=
  isBlank c || c == '(' || c == ')' || c == '=' || c == '"' || c == ';'

/-- The number of bytes of a text in UTF-8. -/
def byteLength (cs : List Char) : Nat :=
  cs.foldl (fun n c => n + c.utf8Size) 0

/-- Read `line` or `line:column`; the column is 0 when it is left out. -/
def readPosition (cs : List Char) : Option Position :=
  match cut ':' cs with
  | none => (readWord cs).map fun line => ⟨line, 0⟩
  | some (line, column) =>
    match readWord line, readWord column with
    | some line, some column => some ⟨line, column⟩
    | _, _ => none

/-- Whether a character belongs to the position after a quoted text. -/
def isPositionChar (c : Char) : Bool := c.isDigit || c == ':'

/-- The character that a backslash and `c` stand for. -/
def unescape (c : Char) : Char :=
  if c = 'n' then '\n' else if c = 't' then '\t' else c

/-- Read up to the closing quote: the text, then the offset and the characters
after the quote.  `seen` holds the text so far, last character first. -/
def scanText (offset : Nat) (seen : List Char) : List Char → Option (String × Nat × List Char)
  | [] => none
  | c :: rest =>
    if c = '"' then some (String.ofList seen.reverse, offset + 1, rest)
    else if c = '\\' then
      match rest with
      | [] => none
      | e :: rest => scanText (offset + 1 + e.utf8Size) (unescape e :: seen) rest
    else scanText (offset + c.utf8Size) (c :: seen) rest

/-- Read the position after a quoted text, if there is one: the position, then
the offset and the characters after it. -/
def scanPosition (offset : Nat) (cs : List Char) :
    Except ReadError (Option Position × Nat × List Char) :=
  match cs with
  | '@' :: rest =>
    let spec := rest.takeWhile isPositionChar
    match readPosition spec with
    | none => .error (.invalidPosition (String.ofList spec) offset)
    | some position =>
      .ok (some position, offset + 1 + byteLength spec, rest.dropWhile isPositionChar)
  | _ => .ok (none, offset, cs)

/-- Read one lexeme, one white space or one comment that starts with `c`: the
lexeme if it is one, then the offset and the characters after it. -/
def scan (offset : Nat) (c : Char) (rest : List Char) :
    Except ReadError (Option Lexeme × Nat × List Char) :=
  if isBlank c then .ok (none, offset + c.utf8Size, rest)
  else if c = ';' then
    .ok (none, offset + 1 + byteLength (rest.takeWhile (· != '\n')), rest.dropWhile (· != '\n'))
  else if c = '(' then .ok (some .opening, offset + 1, rest)
  else if c = ')' then .ok (some .closing, offset + 1, rest)
  else if c = '=' then .ok (some .equals, offset + 1, rest)
  else if c = '"' then
    match scanText (offset + 1) [] rest with
    | none => .error (.unterminatedText offset)
    | some (text, place, rest) =>
      match scanPosition place rest with
      | .error e => .error e
      | .ok (position, place, rest) => .ok (some (.text text position), place, rest)
  else
    let name := rest.takeWhile (!isDelimiter ·)
    .ok (some (.atom (String.ofList (c :: name))), offset + c.utf8Size + byteLength name,
      rest.dropWhile (!isDelimiter ·))

theorem length_scanText_le {offset : Nat} {seen cs : List Char} {text : String} {place : Nat}
    {rest : List Char} (h : scanText offset seen cs = some (text, place, rest)) :
    rest.length ≤ cs.length := by
  fun_induction scanText offset seen cs <;> simp_all <;> omega

theorem length_scanPosition_le {offset : Nat} {cs : List Char} {position : Option Position}
    {place : Nat} {rest : List Char} (h : scanPosition offset cs = .ok (position, place, rest)) :
    rest.length ≤ cs.length := by
  unfold scanPosition at h
  split at h
  · rename_i tail
    have := length_dropWhile_le isPositionChar tail
    dsimp only at h
    split at h
    · simp at h
    · simp only [Except.ok.injEq, Prod.mk.injEq] at h
      obtain ⟨-, -, rfl⟩ := h
      simp only [List.length_cons]
      omega
  · simp only [Except.ok.injEq, Prod.mk.injEq] at h
    obtain ⟨-, -, rfl⟩ := h
    omega

/-- What is left after a lexeme, a space or a comment is no longer than what
followed its first character. -/
theorem length_scan_lt {offset : Nat} {c : Char} {cs : List Char} {found : Option Lexeme}
    {place : Nat} {rest : List Char} (h : scan offset c cs = .ok (found, place, rest)) :
    rest.length < (c :: cs).length := by
  have comment := length_dropWhile_le (· != '\n') cs
  have name := length_dropWhile_le (!isDelimiter ·) cs
  simp only [List.length_cons]
  unfold scan at h
  by_cases hq : c = '"'
  · subst hq
    simp only [isBlank, Char.reduceEq, if_false, if_true] at h
    rw [if_neg (by decide)] at h
    split at h
    · simp at h
    · rename_i text place' tail ht
      have := length_scanText_le ht
      split at h
      · simp at h
      · rename_i hp
        have := length_scanPosition_le hp
        simp only [Except.ok.injEq, Prod.mk.injEq] at h
        obtain ⟨-, -, rfl⟩ := h
        omega
  · rw [if_neg hq] at h
    repeat' split at h
    all_goals
      simp only [Except.ok.injEq, Prod.mk.injEq] at h
      obtain ⟨-, -, rfl⟩ := h
      omega

/-- The lexemes of a text from an offset on, behind those `seen`, last first. -/
def lexFrom (offset : Nat) (seen : List (Lexeme × Nat)) (cs : List Char) :
    Except ReadError (List (Lexeme × Nat)) :=
  match cs with
  | [] => .ok seen.reverse
  | c :: cs =>
    match _h : scan offset c cs with
    | .error e => .error e
    | .ok (none, place, rest) => lexFrom place seen rest
    | .ok (some lexeme, place, rest) => lexFrom place ((lexeme, offset) :: seen) rest
termination_by cs.length
decreasing_by all_goals exact length_scan_lt ‹_›

/-- The lexemes of a text, each with its offset. -/
def lex (s : String) : Except ReadError (List (Lexeme × Nat)) :=
  lexFrom 0 [] s.toList

end QueryAudit.Notation
