import QueryAudit.Json.Basic

/-!
# QueryAudit.Json.Writer

The text of a JSON value, on one line or with a line for each item and member.
Strings keep their characters; quotes, backslashes and controls are escaped.
-/

namespace QueryAudit.Json

/-- How the parts of a value are set apart. -/
inductive Layout where
  /-- Everything on one line, without spaces. -/
  | compact
  /-- A line for each item and member, two spaces deeper than the brackets around it. -/
  | indented
deriving DecidableEq, Repr

/-- What comes before an item, a member or a closing bracket at a depth. -/
def Layout.gap (layout : Layout) (depth : Nat) : List Char :=
  match layout with
  | .compact => []
  | .indented => '\n' :: List.replicate (2 * depth) ' '

/-- What comes between the name and the value of a member. -/
def Layout.colon : Layout → List Char
  | .compact => [':']
  | .indented => [':', ' ']

/-- One character of a string. -/
def escape (c : Char) : List Char :=
  if c = '"' then ['\\', '"']
  else if c = '\\' then ['\\', '\\']
  else if c = '\x08' then ['\\', 'b']
  else if c = '\x0c' then ['\\', 'f']
  else if c = '\n' then ['\\', 'n']
  else if c = '\r' then ['\\', 'r']
  else if c = '\t' then ['\\', 't']
  else if c.toNat < 0x20 then
    ['\\', 'u', '0', '0', Nat.digitChar (c.toNat / 16), Nat.digitChar (c.toNat % 16)]
  else [c]

/-- A string in quotes.  One without characters is written as half of a surrogate pair. -/
def quote : Option String → List Char
  | some s => '"' :: s.toList.flatMap escape ++ ['"']
  | none => ['"', '\\', 'u', 'd', '8', '0', '0', '"']

mutual

/-- Write a value at a depth in front of `after`. -/
def writeOnto (layout : Layout) (depth : Nat) (after : List Char) : Json → List Char
  | null => 'n' :: 'u' :: 'l' :: 'l' :: after
  | bool true => 't' :: 'r' :: 'u' :: 'e' :: after
  | bool false => 'f' :: 'a' :: 'l' :: 's' :: 'e' :: after
  | number numeral => numeral.toList ++ after
  | string s => quote s ++ after
  | array [] => '[' :: ']' :: after
  | array (value :: rest) =>
    '[' :: layout.gap (depth + 1)
      ++ writeOnto layout (depth + 1) (writeItems layout depth after rest) value
  | object [] => '\x7b' :: '\x7d' :: after
  | object ((name, value) :: rest) =>
    '\x7b' :: layout.gap (depth + 1) ++ quote name ++ layout.colon
      ++ writeOnto layout (depth + 1) (writeMembers layout depth after rest) value

/-- Write the items after the first, and the bracket that closes the array. -/
def writeItems (layout : Layout) (depth : Nat) (after : List Char) : List Json → List Char
  | [] => layout.gap depth ++ ']' :: after
  | value :: rest =>
    ',' :: layout.gap (depth + 1)
      ++ writeOnto layout (depth + 1) (writeItems layout depth after rest) value

/-- Write the members after the first, and the bracket that closes the object. -/
def writeMembers (layout : Layout) (depth : Nat) (after : List Char) :
    List (Option String × Json) → List Char
  | [] => layout.gap depth ++ '\x7d' :: after
  | (name, value) :: rest =>
    ',' :: layout.gap (depth + 1) ++ quote name ++ layout.colon
      ++ writeOnto layout (depth + 1) (writeMembers layout depth after rest) value

end

/-- The text of a value. -/
def write (layout : Layout) (value : Json) : String :=
  String.ofList (writeOnto layout 0 [] value)

end QueryAudit.Json
