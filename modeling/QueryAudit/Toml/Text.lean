import QueryAudit.Text.Cut

/-!
# QueryAudit.Toml.Text

The characters of a TOML document: blanks, line ends and comments, the four
kinds of strings, and keys.

Every reader takes the characters from a place on and gives what it has read
together with the characters after it, or `none`.
-/

namespace QueryAudit.Toml

/-! ## between values -/

/-- Whether a character is a blank inside a line. -/
def isGap (c : Char) : Bool := c == ' ' || c == '\t'

/-- Whether a character may stand in a comment or a string: no control character
but the tab. -/
def isPlain (c : Char) : Bool := c == '\t' || (0x20 ≤ c.toNat && c.toNat != 0x7F)

/-- Skip blanks inside a line. -/
def skipGap (cs : List Char) : List Char := cs.dropWhile isGap

/-- Read the end of a line. -/
def lineEnd? : List Char → Option (List Char)
  | '\n' :: rest => some rest
  | '\r' :: '\n' :: rest => some rest
  | _ => none

/-- Skip a comment up to the end of its line. -/
def skipComment : List Char → List Char
  | '#' :: rest => rest.dropWhile isPlain
  | cs => cs

/-- Read what may follow on a line: blanks, a comment, and the end of the line or
of the text. -/
def restOfLine? (cs : List Char) : Option (List Char) :=
  match skipComment (skipGap cs) with
  | [] => some []
  | rest => lineEnd? rest

/-- Skip blanks, comments and line ends.  A comment runs up to a line end. -/
def skipFiller (inComment : Bool) : List Char → List Char
  | [] => []
  | '\r' :: '\n' :: rest => skipFiller false rest
  | c :: rest =>
    if c = '\n' then skipFiller false rest
    else if inComment then if isPlain c then skipFiller true rest else c :: rest
    else if isGap c then skipFiller false rest
    else if c = '#' then skipFiller true rest
    else c :: rest

/-! ## strings -/

/-- Where a reader stands in a string with escapes. -/
inductive StringPlace where
  | text
  /-- Behind a backslash. -/
  | escape
  /-- In the digits of a character number, `missing` of which are still to come. -/
  | code (missing value : Nat)
  /-- Behind a backslash and blanks, before the line end that they belong to. -/
  | lineBreak
  /-- Behind an escaped line end, before the next character that is not blank. -/
  | indentation

/-- The character that a backslash and one more character stand for. -/
def escaped? (c : Char) : Option Char :=
  if c = 'b' then some '\x08'
  else if c = 't' then some '\t'
  else if c = 'n' then some '\n'
  else if c = 'f' then some '\x0c'
  else if c = 'r' then some '\r'
  else if c = '"' then some '"'
  else if c = '\\' then some '\\'
  else none

/-- The value of a hexadecimal digit. -/
def digit? (c : Char) : Option Nat :=
  if c.isDigit then some (c.toNat - '0'.toNat)
  else if 'a' ≤ c && c ≤ 'f' then some (c.toNat - 'a'.toNat + 10)
  else if 'A' ≤ c && c ≤ 'F' then some (c.toNat - 'A'.toNat + 10)
  else none

/-- The character with a number. -/
def charOf? (code : Nat) : Option Char :=
  if h : code.isValidChar then some (Char.ofNatAux code h) else none

/-- Whether a carriage return belongs to a line end. -/
def isReturn (c : Char) (rest : List Char) : Bool := c == '\r' && rest.head? == some '\n'

/-- Read the end of a multiline string behind a `quote`: up to two quotes that
still belong to the string, and the characters after the string. -/
def closing? (quote : Char) (cs : List Char) : Option (List Char × List Char) :=
  let quotes := (cs.takeWhile (· == quote)).take 4
  if quotes.length < 2 then none else some (quotes.drop 2, cs.drop quotes.length)

/-- Read the rest of a string with escapes, `multiline` or not; `seen` is what has
been read, last first. -/
def scanString (multiline : Bool) (place : StringPlace) (seen : List Char) :
    List Char → Option (List Char × List Char)
  | [] => none
  | c :: rest =>
    match place with
    | .escape =>
      if c = 'u' then scanString multiline (.code 4 0) seen rest
      else if c = 'U' then scanString multiline (.code 8 0) seen rest
      else if multiline && (isGap c || isReturn c rest) then
        scanString multiline .lineBreak seen rest
      else if multiline && c = '\n' then scanString multiline .indentation seen rest
      else
        match escaped? c with
        | some e => scanString multiline .text (e :: seen) rest
        | none => none
    | .code missing value =>
      match digit? c with
      | none => none
      | some d =>
        if missing = 1 then
          match charOf? (value * 16 + d) with
          | some e => scanString multiline .text (e :: seen) rest
          | none => none
        else scanString multiline (.code (missing - 1) (value * 16 + d)) seen rest
    | .lineBreak =>
      if c = '\n' then scanString multiline .indentation seen rest
      else if isGap c || isReturn c rest then
        scanString multiline .lineBreak seen rest
      else none
    | .indentation =>
      if isGap c || c = '\n' || isReturn c rest then
        scanString multiline .indentation seen rest
      else if c = '\\' then scanString multiline .escape seen rest
      else if c = '"' then
        match closing? '"' rest with
        | some (quotes, rest) => some (seen.reverse ++ quotes, rest)
        | none => scanString multiline .text ('"' :: seen) rest
      else if isPlain c then scanString multiline .text (c :: seen) rest
      else none
    | .text =>
      if c = '\\' then scanString multiline .escape seen rest
      else if c = '"' then
        if multiline then
          match closing? '"' rest with
          | some (quotes, rest) => some (seen.reverse ++ quotes, rest)
          | none => scanString multiline .text ('"' :: seen) rest
        else some (seen.reverse, rest)
      else if multiline && c = '\n' then scanString multiline .text ('\n' :: seen) rest
      else if multiline && isReturn c rest then
        scanString multiline .text seen rest
      else if isPlain c then scanString multiline .text (c :: seen) rest
      else none

/-- Read the rest of a string without escapes. -/
def scanLiteral (multiline : Bool) (seen : List Char) :
    List Char → Option (List Char × List Char)
  | [] => none
  | c :: rest =>
    if c = '\'' then
      if multiline then
        match closing? '\'' rest with
        | some (quotes, rest) => some (seen.reverse ++ quotes, rest)
        | none => scanLiteral multiline ('\'' :: seen) rest
      else some (seen.reverse, rest)
    else if multiline && c = '\n' then scanLiteral multiline ('\n' :: seen) rest
    else if multiline && isReturn c rest then scanLiteral multiline seen rest
    else if isPlain c then scanLiteral multiline (c :: seen) rest
    else none

/-- The characters of a multiline string: a line end right at its start is dropped. -/
def dropFirstLineEnd (cs : List Char) : List Char := (lineEnd? cs).getD cs

/-- Read a string of any kind. -/
def string? : List Char → Option (String × List Char)
  | '"' :: '"' :: '"' :: rest =>
    (scanString true .text [] (dropFirstLineEnd rest)).map fun (s, rest) => (String.ofList s, rest)
  | '"' :: rest => (scanString false .text [] rest).map fun (s, rest) => (String.ofList s, rest)
  | '\'' :: '\'' :: '\'' :: rest =>
    (scanLiteral true [] (dropFirstLineEnd rest)).map fun (s, rest) => (String.ofList s, rest)
  | '\'' :: rest => (scanLiteral false [] rest).map fun (s, rest) => (String.ofList s, rest)
  | _ => none

/-! ## keys -/

/-- Whether a character may stand in a key without quotes. -/
def isBare (c : Char) : Bool := c.isAlphanum || c == '_' || c == '-'

/-- Read one part of a key; a quoted part is on one line. -/
def keyPart? (cs : List Char) : Option (String × List Char) :=
  match cs with
  | '"' :: rest => (scanString false .text [] rest).map fun (s, rest) => (String.ofList s, rest)
  | '\'' :: rest => (scanLiteral false [] rest).map fun (s, rest) => (String.ofList s, rest)
  | _ =>
    let part := cs.takeWhile isBare
    if part.isEmpty then none else some (String.ofList part, cs.dropWhile isBare)

/-- Read a key: parts with dots between them.  The first argument bounds the
number of parts. -/
def key? : Nat → List Char → Option (List String × List Char)
  | 0, _ => none
  | n + 1, cs =>
    match keyPart? (skipGap cs) with
    | none => none
    | some (part, rest) =>
      match skipGap rest with
      | '.' :: rest => (key? n rest).map fun (parts, rest) => (part :: parts, rest)
      | rest => some ([part], rest)

end QueryAudit.Toml
