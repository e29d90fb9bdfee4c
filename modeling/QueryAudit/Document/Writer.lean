import QueryAudit.Json.Writer
import QueryAudit.SourceUnit
import QueryAudit.Text.Decimal

/-!
# QueryAudit.Document.Writer

Units as JSON documents.  A field label is written only when there is one, and
children only when there are any; an element of a list of children says in its
`type` member whether it is a node or a token.
-/

namespace QueryAudit.Document

/-- A 32-bit word as a JSON number. -/
def ofWord (w : UInt32) : Json := .number (writeWord w)

/-- The member for a field label, if there is one. -/
def fieldMember : Option String → List (String × Json)
  | none => []
  | some field => [("field", .text field)]

/-- The members that tell where something stands. -/
def positionMembers (p : Position) : List (String × Json) :=
  [("line", ofWord p.line), ("column", ofWord p.column)]

/-- The members of a node in front of its children. -/
def labelMembers (l : Label) : List (String × Json) :=
  ("kind", .text l.kind) :: fieldMember l.field ++ positionMembers l.position

/-- The members of a token. -/
def leafMembers (l : Leaf) : List (String × Json) :=
  ("text", .text l.text) :: fieldMember l.field ++ positionMembers l.position

/-- The member for the children of a node, given as items, if there are any. -/
def childrenMember (items : List Json) : List (String × Json) :=
  if items.isEmpty then [] else [("children", .array items)]

/-- The elements of a forest as the items of a list of children. -/
def ofForest : Forest → List Json
  | .nil => []
  | .leaf l rest => .record (("type", .text "token") :: leafMembers l) :: ofForest rest
  | .node label children rest =>
    .record (("type", .text "node") :: labelMembers label ++ childrenMember (ofForest children))
      :: ofForest rest

/-- The members of a node. -/
def nodeMembers (n : Node) : List (String × Json) :=
  labelMembers n.toLabel ++ childrenMember (ofForest n.children)

/-- A node on its own, without its type. -/
def ofNode (n : Node) : Json := .record (nodeMembers n)

/-- A node as an element. -/
def ofElement (n : Node) : Json := .record (("type", .text "node") :: nodeMembers n)

/-- A problem as a JSON value. -/
def ofProblem (p : Problem) : Json :=
  .record (positionMembers p.position ++ [("message", .text p.message)])

/-- A unit as a document. -/
def ofUnit (u : SourceUnit) : Json :=
  .record [("name", .text u.name), ("tree", ofNode u.tree),
    ("problems", .array (u.problems.map ofProblem))]

end QueryAudit.Document
