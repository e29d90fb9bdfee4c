import QueryAudit.Config
import QueryAudit.Toml.Document

/-!
# QueryAudit.Toml.Settings

The settings of an analysis from a TOML document.  It has at most two tables,
`rules` with the keys `disable` and `enable`, and `parse_error` with the key
`allowed_messages`; all three are lists of strings, and no other key is allowed.
A table may also be an array of its values in this order.
-/

namespace QueryAudit.Toml

/-! ## tables -/

/-- How a table comes to be. -/
inductive TableForm where
  /-- By its entries. -/
  | entries (entries : List Entry)
  /-- By an array of the values of its keys. -/
  | values (items : List Value)

/-- The form of a table that is a value. -/
def TableForm.ofValue? : Value → Option TableForm
  | .table given => some (.entries given)
  | .array items => some (.values items)
  | _ => none

/-- The form of a top-level table with a name; `none` inside when it is absent.
It may be given as one value, by keys that start with its name, or under one
header, and only in one of these ways. -/
def Document.table? (d : Document) (name : String) : Option (Option TableForm) :=
  let whole := d.root.filter fun (key, _) => key == [name]
  let dotted := d.root.filter fun (key, _) => key.head? == some name && key != [name]
  let headed := d.tables.filter fun (key, _) => key == [name]
  match whole, dotted, headed with
  | [], [], [] => some none
  | [(_, value)], [], [] => (TableForm.ofValue? value).map some
  | [], _ :: _, [] => some (some (.entries (dotted.map fun (key, value) => (key.tail, value))))
  | [], [], [(_, entries)] => some (some (.entries entries))
  | _, _, _ => none

/-- Whether no key of a table is defined twice, or both as a value and as a table. -/
def areDistinct (entries : List Entry) : Bool :=
  match entries with
  | [] => true
  | (key, _) :: rest =>
    rest.all (fun (other, _) => !key.isPrefixOf other && !other.isPrefixOf key)
      && areDistinct rest

mutual

/-- Whether the tables between braces in a value define no key twice. -/
def isConsistent : Value → Bool
  | .array items => areConsistent items
  | .table entries => areDistinct entries && entriesAreConsistent entries
  | .string _ => true
  | .scalar => true

/-- Whether all of the values are consistent. -/
def areConsistent : List Value → Bool
  | [] => true
  | value :: rest => isConsistent value && areConsistent rest

/-- Whether the values of all entries are consistent. -/
def entriesAreConsistent : List Entry → Bool
  | [] => true
  | (_, value) :: rest => isConsistent value && entriesAreConsistent rest

end

/-! ## values -/

/-- An array that holds strings only. -/
def strings? : Value → Option (List String)
  | .array items => items.mapM fun
    | .string s => some s
    | _ => none
  | _ => none

/-- The values of a table by its keys.  An array may leave out values at its end;
what is behind the last one is passed over. -/
def TableForm.lists? (keys : List String) : TableForm → Option (String → Option (List String))
  | .entries given =>
    if areDistinct given && given.all (fun (key, value) =>
        keys.any (key == [·]) && (strings? value).isSome) then
      some fun name => (given.find? (·.1 == [name])).bind fun (_, value) => strings? value
    else none
  | .values items =>
    if (items.take keys.length).all (fun value => (strings? value).isSome)
        && areConsistent items then
      some fun name => (items[keys.idxOf name]?).bind strings?
    else none

/-- The settings in a document. -/
def Document.config? (d : Document) : Option Config := do
  let names := ["rules", "parse_error"]
  if !(d.root.all fun (key, _) => key.head?.any names.contains) then none
  if !(d.tables.all fun (key, _) => names.any (key == [·])) then none
  let rules ← d.table? "rules"
  let rules ← (rules.getD (.entries [])).lists? ["disable", "enable"]
  let parser ← d.table? "parse_error"
  let parser ← (parser.getD (.entries [])).lists? ["allowed_messages"]
  return ⟨(rules "disable").getD [], (rules "enable").getD [],
    (parser "allowed_messages").getD Config.standardAllowedMessages⟩

/-- The settings in a text. -/
def config? (s : String) : Option Config := (document? s).bind Document.config?

end QueryAudit.Toml
