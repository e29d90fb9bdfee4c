import QueryAudit.Json.Reader
import QueryAudit.SourceUnit
import QueryAudit.Text.Decimal

/-!
# QueryAudit.Document.Reader

Units from JSON documents.  A record of known fields may be an object, which
names them, or an array, which has them in their order.  In an object unknown
members are passed over, and no known one may come twice; in an array only
fields at the end may be left out, and only those that have a default.

An element says by its type whether it is a node or a token, in a `type` member
or in the first place of an array.  Everything inside an element has to be sound
JSON, also what is passed over.
-/

namespace QueryAudit.Document

/-! ## records -/

/-- The parts of a record: named, or in the order of its fields. -/
inductive Parts (α : Type) where
  | named (members : List (Option String × α))
  | placed (items : List α)

/-- The values of a record by the names of its fields. -/
def Parts.fields? {α : Type} (names : List String) : Parts α → Option (String → Option α)
  | named members =>
    if members.all (·.1.isSome)
        && names.all fun name => (members.filter (·.1 == some name)).length ≤ 1 then
      some fun name => (members.find? (·.1 == some name)).map (·.2)
    else none
  | placed items =>
    if items.length ≤ names.length then some fun name => items[names.idxOf name]? else none

/-- Read a field that may be left out. -/
def readOr {α β : Type} (absent : β) (read : α → Option β) : Option α → Option β
  | none => some absent
  | some value => read value

/-! ## values -/

/-- A string with characters. -/
def text? : Json → Option String
  | .string s => s
  | _ => none

/-- A number in the range of 32 bits, written without sign, fraction or exponent. -/
def word? : Json → Option UInt32
  | .number numeral => readWord numeral.toList
  | _ => none

/-- A field label, or `null` for none. -/
def label? : Json → Option (Option String)
  | .null => some none
  | .string (some s) => some (some s)
  | _ => none

/-! ## elements -/

/-- A value, and the forest that it is as a list of children, if it is one. -/
structure View where
  value : Json
  forest : Option Forest

/-- Read a node from its parts. -/
def nodeOf? (parts : Parts View) : Option Node := do
  let fields ← parts.fields? ["kind", "field", "line", "column", "children"]
  let kind ← (fields "kind").bind fun v => text? v.value
  let field ← readOr none (fun v => label? v.value) (fields "field")
  let line ← (fields "line").bind fun v => word? v.value
  let column ← readOr 0 (fun v => word? v.value) (fields "column")
  let children ← readOr .nil View.forest (fields "children")
  return ⟨⟨kind, field, ⟨line, column⟩⟩, children⟩

/-- Read a token from its parts. -/
def leafOf? (parts : Parts View) : Option Leaf := do
  let fields ← parts.fields? ["text", "field", "line", "column"]
  let text ← (fields "text").bind fun v => text? v.value
  let field ← readOr none (fun v => label? v.value) (fields "field")
  let line ← (fields "line").bind fun v => word? v.value
  let column ← readOr 0 (fun v => word? v.value) (fields "column")
  return ⟨text, field, ⟨line, column⟩⟩

/-- The two types of elements. -/
inductive ElementType where
  | node
  | token
deriving DecidableEq, Repr

/-- The type that a value names.  Inside another element the types may also be
given by number. -/
def elementType? (inside : Bool) : Json → Option ElementType
  | .string (some "node") => some .node
  | .string (some "token") => some .token
  | .number "0" => if inside then some .node else none
  | .number "1" => if inside then some .token else none
  | _ => none

/-- Read an element of a type from its other parts. -/
def elementOf? (type : ElementType) (parts : Parts View) : Option Element :=
  match type with
  | .node => (nodeOf? parts).map .node
  | .token => (leafOf? parts).map .leaf

/-- Read an element from its members. -/
def elementOfMembers? (inside : Bool) (members : List (Option String × View)) : Option Element :=
  match members.filter (·.1 == some "type") with
  | [(_, type)] =>
    (elementType? inside type.value).bind fun type =>
      elementOf? type (.named (members.filter (·.1 != some "type")))
  | _ => none

mutual

/-- Read an element. -/
def element? (inside : Bool) : Json → Option Element
  | .object members => elementOfMembers? inside (viewMembers members)
  | .array (type :: items) =>
    (elementType? inside type).bind fun type => elementOf? type (.placed (viewItems items))
  | _ => none

/-- Read a list of elements. -/
def elements? (inside : Bool) : List Json → Option Forest
  | [] => some .nil
  | value :: rest =>
    match element? inside value with
    | none => none
    | some e => (elements? inside rest).map (Forest.cons e)

/-- Read the children of a node inside an element. -/
def forest? : Json → Option Forest
  | .array items => elements? true items
  | _ => none

/-- The views of the items of an array. -/
def viewItems : List Json → List View
  | [] => []
  | value :: rest => ⟨value, forest? value⟩ :: viewItems rest

/-- The views of the values of members. -/
def viewMembers : List (Option String × Json) → List (Option String × View)
  | [] => []
  | (name, value) :: rest => (name, ⟨value, forest? value⟩) :: viewMembers rest

end

/-! ## units -/

/-- The parts of a record with their outermost elements. -/
def partsOf? : Json → Option (Parts View)
  | .object members => some (.named (members.map fun (name, value) => (name, view value)))
  | .array items => some (.placed (items.map view))
  | _ => none
where
  view (value : Json) : View :=
    ⟨value, match value with
      | .array items => if Json.areSound items then elements? false items else none
      | _ => none⟩

/-- Read the node at the root of a tree. -/
def node? (value : Json) : Option Node := (partsOf? value).bind nodeOf?

/-- The parts of a record that holds no elements. -/
def plainParts? : Json → Option (Parts Json)
  | .object members => some (.named members)
  | .array items => some (.placed items)
  | _ => none

/-- A problem, if the value describes one. -/
def problem? (value : Json) : Option Problem := do
  let parts ← plainParts? value
  let fields ← parts.fields? ["line", "column", "message"]
  let line ← (fields "line").bind word?
  let column ← readOr 0 word? (fields "column")
  let message ← (fields "message").bind text?
  return ⟨⟨line, column⟩, message⟩

/-- A list of problems. -/
def problems? : Json → Option (List Problem)
  | .array items => items.mapM problem?
  | _ => none

/-- Read a unit. -/
def unit? (value : Json) : Option SourceUnit := do
  let parts ← plainParts? value
  let fields ← parts.fields? ["name", "tree", "problems"]
  let name ← (fields "name").bind text?
  let tree ← (fields "tree").bind node?
  let problems ← readOr [] problems? (fields "problems")
  return ⟨name, tree, problems⟩

end QueryAudit.Document
