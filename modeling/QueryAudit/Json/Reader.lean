import QueryAudit.Json.Basic
import QueryAudit.Json.Token

/-!
# QueryAudit.Json.Reader

From the tokens of a JSON text to its value.  The reader keeps the arrays and
objects that are still open, innermost first, each with what it holds so far, so
that nesting costs no call stack.
-/

namespace QueryAudit.Json

/-- An array or object whose closing bracket has not been read, its parts last first. -/
inductive OpenValue where
  | array (items : List Json)
  /-- An object that waits for the value of its member `name`. -/
  | object (members : List (Option String × Json)) (name : Option String)

/-- What has to come next. -/
inductive Expected where
  /-- A value. -/
  | value
  /-- A value, or the bracket that closes an array without items. -/
  | firstItem
  /-- A member name; the members before it are given, last first. -/
  | name (members : List (Option String × Json))
  /-- A member name, or the bracket that closes an object without members. -/
  | firstName
  /-- What follows a complete value. -/
  | after (value : Json)

/-- Read the rest of a value inside the arrays and objects of `opened`. -/
def readFrom (opened : List OpenValue) (expected : Expected) : List Token → Option Json
  | [] =>
    match expected, opened with
    | .after value, [] => some value
    | _, _ => none
  | token :: rest =>
    match expected with
    | .after value =>
      match opened, token with
      | .array items :: outer, .comma => readFrom (.array (value :: items) :: outer) .value rest
      | .array items :: outer, .closeArray =>
        readFrom outer (.after (.array (value :: items).reverse)) rest
      | .object members name :: outer, .comma =>
        readFrom outer (.name ((name, value) :: members)) rest
      | .object members name :: outer, .closeObject =>
        readFrom outer (.after (.object ((name, value) :: members).reverse)) rest
      | _, _ => none
    | .name members =>
      match token, rest with
      | .string name, .colon :: rest => readFrom (.object members name :: opened) .value rest
      | _, _ => none
    | .firstName =>
      match token, rest with
      | .string name, .colon :: rest => readFrom (.object [] name :: opened) .value rest
      | .closeObject, rest => readFrom opened (.after (.object [])) rest
      | _, _ => none
    | start =>
      match token with
      | .null => readFrom opened (.after .null) rest
      | .bool b => readFrom opened (.after (.bool b)) rest
      | .number numeral => readFrom opened (.after (.number numeral)) rest
      | .string s => readFrom opened (.after (.string s)) rest
      | .openArray => readFrom (.array [] :: opened) .firstItem rest
      | .openObject => readFrom opened .firstName rest
      | .closeArray =>
        match start, opened with
        | .firstItem, .array _ :: outer => readFrom outer (.after (.array [])) rest
        | _, _ => none
      | _ => none

/-- The value of a JSON text. -/
def read (s : String) : Option Json :=
  match tokens s with
  | none => none
  | some tokens => readFrom [] .value tokens

end QueryAudit.Json
