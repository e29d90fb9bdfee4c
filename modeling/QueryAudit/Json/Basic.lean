import QueryAudit.Data.Double

/-!
# QueryAudit.Json.Basic

JSON values as a text spells them: a number is its numeral, an object is the
list of its members with repeated names and their order, and a string whose
escapes name no characters is still a string.

* `Json.isSound` — every string of a value has characters and every number is
  read as a finite double.
-/

namespace QueryAudit

/-- A JSON value. -/
inductive Json where
  | null
  | bool (b : Bool)
  /-- A number by its numeral. -/
  | number (numeral : String)
  /-- A string; `none` when an escape in it is half of a surrogate pair. -/
  | string (s : Option String)
  | array (items : List Json)
  | object (members : List (Option String × Json))
deriving Repr, BEq

namespace Json

/-- The string of the given characters. -/
def text (s : String) : Json := .string (some s)

/-- The object with the given members. -/
def record (members : List (String × Json)) : Json :=
  .object (members.map fun (name, value) => (some name, value))

/-! ## the range of numbers -/

/-- A numeral in scientific form: a significand below `2 ^ 64` and a power of ten. -/
structure Scientific where
  significand : Nat
  exponent : Int
deriving DecidableEq, Repr

/-- Put digits behind a significand as long as it stays below `2 ^ 64`.  The
second part is the digits from the first one on that does not fit. -/
def Scientific.append (significand : Nat) : List Char → Nat × List Char
  | [] => (significand, [])
  | digit :: rest =>
    let longer := significand * 10 + (digit.toNat - '0'.toNat)
    if longer < 1 <<< 64 then append longer rest else (significand, digit :: rest)

/-- The significand and the exponent of a numeral without its sign.  Digits that
do not fit in the significand are dropped; before the point each of them counts
as a power of ten. -/
def Scientific.ofNumeral (numeral : List Char) : Scientific :=
  let unsigned := numeral.dropWhile (· == '-')
  let mantissa := unsigned.takeWhile fun c => c != 'e' && c != 'E'
  let power := (unsigned.drop mantissa.length).drop 1
  let whole := mantissa.takeWhile (· != '.')
  let fraction := (mantissa.drop whole.length).drop 1
  let value : Int := Nat.ofDigitChars 10 (power.filter Char.isDigit) 0
  let (significand, wholeLeft) := append 0 whole
  let (significand, fractionLeft) := append significand fraction
  ⟨significand,
    (if power.head? == some '-' then -value else value) + wholeLeft.length
      - (fraction.length - fractionLeft.length : Nat)⟩

/-- The greatest power of ten that is finite. -/
def maxPower : Nat := 308

/-- Whether a numeral is read as a finite double.  It is read as the product of
its significand and its power of ten, of which each is rounded before they are
multiplied; a negative power makes nothing infinite. -/
def isFinite (numeral : String) : Bool :=
  let n := Scientific.ofNumeral numeral.toList
  match n.exponent with
  | .negSucc _ => true
  | .ofNat power =>
    n.significand == 0
      || (power ≤ maxPower
        && Double.round n.significand * Double.round (Nat.pow 10 power) < Double.overflow)

/-! ## soundness -/

mutual

/-- Whether every string in a value has characters, member names included, and
every number is read as a finite double. -/
def isSound : Json → Bool
  | null => true
  | bool _ => true
  | number numeral => isFinite numeral
  | string s => s.isSome
  | array items => areSound items
  | object members => membersAreSound members

/-- Whether all of the values are sound. -/
def areSound : List Json → Bool
  | [] => true
  | value :: rest => value.isSound && areSound rest

/-- Whether the names and values of all members are sound. -/
def membersAreSound : List (Option String × Json) → Bool
  | [] => true
  | (name, value) :: rest => name.isSome && value.isSound && membersAreSound rest

end

end Json

end QueryAudit
