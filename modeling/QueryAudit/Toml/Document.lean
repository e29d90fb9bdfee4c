import QueryAudit.Data.Double
import QueryAudit.Toml.Text

/-!
# QueryAudit.Toml.Document

TOML documents as they are written: key by key and table by table, before it is
asked which keys go together.  Of the values that are neither strings nor arrays
nor tables only the kind is kept.
-/

namespace QueryAudit.Toml

/-- A value. -/
inductive Value where
  | string (s : String)
  /-- A number, a truth value or a point in time. -/
  | scalar
  | array (items : List Value)
  /-- A table between braces, with its keys in order. -/
  | table (entries : List (List String × Value))
deriving Repr

/-- A key with its value. -/
abbrev Entry := List String × Value

/-- A document: the entries before the first header, and for each header the key
in it with the entries below. -/
structure Document where
  root : List Entry
  tables : List (List String × List Entry)
deriving Repr

/-! ## numbers, truth values and points in time -/

/-- Whether a text is made of digits with single underscores between them. -/
def isDigits (isDigit : Char → Bool) (cs : List Char) : Bool :=
  (cs.splitOn '_').all fun part => !part.isEmpty && part.all isDigit

/-- Whether a text is a whole number without sign or leading zeros. -/
def isWhole (cs : List Char) : Bool :=
  isDigits Char.isDigit cs && (cs.head? != some '0' || cs.length == 1)

/-- A number without its sign. -/
def dropSign : List Char → List Char
  | '+' :: rest => rest
  | '-' :: rest => rest
  | cs => cs

/-- The value of digits in a base, underscores apart. -/
def valueOf (base : Nat) (cs : List Char) : Nat :=
  cs.foldl (fun n c => match digit? c with | some d => n * base + d | none => n) 0

/-- Whether a text is an integer of 64 bits. -/
def isInteger (cs : List Char) : Bool :=
  match cs with
  | '0' :: 'x' :: digits =>
    isDigits (fun c => (digit? c).isSome) digits && valueOf 16 digits < 1 <<< 63
  | '0' :: 'o' :: digits =>
    isDigits (fun c => '0' ≤ c && c ≤ '7') digits && valueOf 8 digits < 1 <<< 63
  | '0' :: 'b' :: digits =>
    isDigits (fun c => c == '0' || c == '1') digits && valueOf 2 digits < 1 <<< 63
  | _ =>
    isWhole (dropSign cs)
      && valueOf 10 (dropSign cs) < 1 <<< 63 + if cs.head? == some '-' then 1 else 0

/-- The value of an exponent.  Once it is above 65535 its further digits do not count. -/
def powerOf (cs : List Char) : Int :=
  let digits := (dropSign cs).filter Char.isDigit
  let value : Nat := digits.foldl (fun n c =>
    if n < 0x10000 then n * 10 + (c.toNat - '0'.toNat) else n) 0
  if cs.head? == some '-' then -value else value

/-- Whether digits with a point behind the first `whole` of them, times a power of
ten, round to infinity. -/
def isInfinite (digits : List Char) (whole : Nat) (power : Int) : Bool :=
  let zeros := digits.takeWhile (· == '0')
  let significant := digits.drop zeros.length
  let point := whole - zeros.length + power
  !significant.isEmpty
    && (309 < point
      || (point == 309
        && Double.overflow
          ≤ Nat.ofDigitChars 10 (significant.take 309) 0 * Nat.pow 10 (309 - significant.length)))

/-- Whether a text is a floating point number.  One that rounds to infinity is
refused unless it is negative. -/
def isFloat (cs : List Char) : Bool :=
  let unsigned := dropSign cs
  if unsigned == ['i', 'n', 'f'] || unsigned == ['n', 'a', 'n'] then true
  else
    let mantissa := unsigned.takeWhile fun c => c != 'e' && c != 'E'
    let power := (unsigned.drop mantissa.length).drop 1
    let fraction := (cut '.' mantissa).map (·.2)
    let whole := (mantissa.takeWhile (· != '.')).filter Char.isDigit
    isWhole (mantissa.takeWhile (· != '.'))
      && fraction.all (isDigits Char.isDigit)
      && (mantissa.length == unsigned.length || isDigits Char.isDigit (dropSign power))
      && (fraction.isSome || mantissa.length != unsigned.length)
      && (cs.head? == some '-'
        || !isInfinite (mantissa.filter Char.isDigit) whole.length (powerOf power))

/-- Read a number of exactly `n` digits between two bounds. -/
def field? (n low high : Nat) (cs : List Char) : Option (Nat × List Char) :=
  let digits := cs.take n
  let value := Nat.ofDigitChars 10 digits 0
  if digits.length = n && digits.all Char.isDigit && low ≤ value && value ≤ high then
    some (value, cs.drop n)
  else none

/-- The number of days of a month. -/
def daysOf (year month : Nat) : Nat :=
  if month = 2 then
    if year % 4 = 0 && (year % 100 != 0 || year % 400 = 0) then 29 else 28
  else if month = 4 || month = 6 || month = 9 || month = 11 then 30
  else 31

/-- Read `yyyy-mm-dd`. -/
def date? (cs : List Char) : Option (List Char) := do
  let (year, rest) ← field? 4 0 9999 cs
  let (month, rest) ← match rest with | '-' :: rest => field? 2 1 12 rest | _ => none
  let (_, rest) ← match rest with | '-' :: rest => field? 2 1 (daysOf year month) rest | _ => none
  return rest

/-- Read `hh:mm:ss` with an optional fraction. -/
def time? (cs : List Char) : Option (List Char) := do
  let (_, rest) ← field? 2 0 23 cs
  let (_, rest) ← match rest with | ':' :: rest => field? 2 0 59 rest | _ => none
  let (_, rest) ← match rest with | ':' :: rest => field? 2 0 60 rest | _ => none
  match rest with
  | '.' :: fraction =>
    if (fraction.takeWhile Char.isDigit).isEmpty then none
    else some (fraction.dropWhile Char.isDigit)
  | rest => some rest

/-- Whether a text is nothing, `Z`, or a distance from it such as `+02:00`. -/
def isZone (cs : List Char) : Bool :=
  match cs with
  | [] => true
  | ['Z'] | ['z'] => true
  | sign :: rest =>
    (sign == '+' || sign == '-') && (((field? 2 0 23 rest).bind fun (_, rest) =>
      match rest with | ':' :: rest => field? 2 0 59 rest | _ => none).any (·.2.isEmpty))

/-- Whether a text is a date, a time, or both. -/
def isMoment (cs : List Char) : Bool :=
  match date? cs with
  | none => time? cs == some []
  | some [] => true
  | some (mark :: rest) =>
    (mark == 'T' || mark == 't' || mark == ' ') && (time? rest).any isZone

/-- Whether a character may stand in a number, a truth value or a point in time. -/
def isScalarChar (c : Char) : Bool := c.isAlphanum || ['+', '-', '_', '.', ':'].contains c

/-- The characters of a value that is not in quotes or brackets.  A space may
stand between a date and a time. -/
def scalarText (cs : List Char) : List Char :=
  let word := cs.takeWhile isScalarChar
  match cs.drop word.length with
  | ' ' :: c :: rest =>
    if date? word == some [] && c.isDigit then
      word ++ ' ' :: (c :: rest).takeWhile isScalarChar
    else word
  | _ => word

/-- Read a number, a truth value or a point in time. -/
def scalar? (cs : List Char) : Option (List Char) :=
  let word := scalarText cs
  if word == ['t', 'r', 'u', 'e'] || word == ['f', 'a', 'l', 's', 'e'] || isInteger word
      || isFloat word || isMoment word then
    some (cs.drop word.length)
  else none

/-! ## values -/

/-- How many arrays and tables between braces may be open at once, and how many
parts a key may have. -/
def maxNesting : Nat := 79

mutual

/-- Read a value inside which `room` arrays and tables may be open.  The first
argument bounds the number of parts. -/
def value? (bound room : Nat) (cs : List Char) : Option (Value × List Char) :=
  match bound with
  | 0 => none
  | bound + 1 =>
    match cs, room with
    | '[' :: _, 0 => none
    | '[' :: rest, room + 1 => items? bound room [] (skipFiller false rest)
    | '\x7b' :: _, 0 => none
    | '\x7b' :: rest, room + 1 =>
      match skipGap rest with
      | '\x7d' :: rest => some (.table [], rest)
      | rest => entries? bound room [] rest
    | '"' :: _, _ => (string? cs).map fun (s, rest) => (.string s, rest)
    | '\'' :: _, _ => (string? cs).map fun (s, rest) => (.string s, rest)
    | _, _ => (scalar? cs).map fun rest => (.scalar, rest)

/-- Read the items of an array behind those `seen`, last first, and its bracket. -/
def items? (bound room : Nat) (seen : List Value) (cs : List Char) :
    Option (Value × List Char) :=
  match bound with
  | 0 => none
  | bound + 1 =>
    match cs with
    | ']' :: rest => some (.array seen.reverse, rest)
    | _ =>
      match value? bound room cs with
      | none => none
      | some (value, rest) =>
        match skipFiller false rest with
        | ',' :: rest => items? bound room (value :: seen) (skipFiller false rest)
        | ']' :: rest => some (.array (value :: seen).reverse, rest)
        | _ => none

/-- Read the entries of a table between braces behind those `seen`, last first,
and its brace. -/
def entries? (bound room : Nat) (seen : List Entry) (cs : List Char) :
    Option (Value × List Char) :=
  match bound with
  | 0 => none
  | bound + 1 =>
    match key? maxNesting cs with
    | some (key, '=' :: rest) =>
      match value? bound room (skipGap rest) with
      | none => none
      | some (value, rest) =>
        match skipGap rest with
        | ',' :: rest => entries? bound room ((key, value) :: seen) (skipGap rest)
        | '\x7d' :: rest => some (.table ((key, value) :: seen).reverse, rest)
        | _ => none
    | _ => none

end

/-! ## lines -/

/-- Read one line behind its blanks into the document: a blank line, a comment,
an entry, or the header of a table. -/
def line? (document : Document) (cs : List Char) : Option (Document × List Char) :=
  match cs with
  | '[' :: rest =>
    match key? maxNesting rest with
    | some (key, ']' :: rest) =>
      (restOfLine? rest).map fun rest =>
        ({ document with tables := (key, []) :: document.tables }, rest)
    | _ => none
  | c :: _ =>
    if c = '#' || c = '\r' || c = '\n' then (restOfLine? cs).map fun rest => (document, rest)
    else
      match key? maxNesting cs with
      | some (key, '=' :: rest) =>
        match value? (cs.length + 1) maxNesting (skipGap rest) with
        | none => none
        | some (value, rest) =>
          (restOfLine? rest).map fun rest =>
            (match document.tables with
              | [] => { document with root := (key, value) :: document.root }
              | (header, entries) :: others =>
                { document with tables := (header, (key, value) :: entries) :: others }, rest)
      | _ => none
  | [] => some (document, [])

/-- Read lines to the end of the text.  Entries and tables are kept last first. -/
def lines? (bound : Nat) (document : Document) (cs : List Char) : Option Document :=
  match bound with
  | 0 => none
  | bound + 1 =>
    match skipGap cs with
    | [] => some document
    | cs =>
      match line? document cs with
      | none => none
      | some (document, rest) => lines? bound document rest

/-- The document in a text.  A byte order mark at its start is passed over. -/
def document? (s : String) : Option Document :=
  let cs := match s.toList with
    | '\uFEFF' :: rest => rest
    | cs => cs
  (lines? (cs.length + 1) ⟨[], []⟩ cs).map fun d =>
    ⟨d.root.reverse, (d.tables.map fun (key, entries) => (key, entries.reverse)).reverse⟩

end QueryAudit.Toml
