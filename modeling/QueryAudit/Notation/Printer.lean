import QueryAudit.Notation.Reader

/-!
# QueryAudit.Notation.Printer

From a tree to its notation.  Every element is written with its position.  A
leaf follows its elder sibling after a space; a node starts a line of its own,
indented by two spaces for each node around it.

* `writeOnto_append` — what follows a forest is not looked at.
-/

namespace QueryAudit.Notation

/-- A field label and its sign, or nothing. -/
def writeField : Option String → List Char
  | none => []
  | some field => field.toList ++ ['=']

/-- `@line:column` -/
def writePosition (p : Position) : List Char :=
  '@' :: (writeWord p.line).toList ++ ':' :: (writeWord p.column).toList

/-- One character of a quoted text. -/
def escape (c : Char) : List Char :=
  if c = '"' then ['\\', '"']
  else if c = '\\' then ['\\', '\\']
  else if c = '\n' then ['\\', 'n']
  else if c = '\t' then ['\\', 't']
  else [c]

/-- A text in quotes. -/
def writeText (s : String) : List Char :=
  '"' :: s.toList.flatMap escape ++ ['"']

/-- The opening bracket of a node with its kind and position. -/
def writeLabel (l : Label) : List Char :=
  writeField l.field ++ '(' :: l.kind.toList ++ writePosition l.position

/-- Write the children of a node at a depth in front of `after`. -/
def writeOnto (depth : Nat) (after : List Char) : Forest → List Char
  | .nil => after
  | .leaf l rest =>
    ' ' :: writeField l.field ++ writeText l.text ++ writePosition l.position
      ++ writeOnto depth after rest
  | .node label children rest =>
    '\n' :: List.replicate (2 * depth) ' ' ++ writeLabel label
      ++ writeOnto (depth + 1) (')' :: writeOnto depth after rest) children

/-- The notation of a tree. -/
def write (n : Node) : String :=
  String.ofList (writeLabel n.toLabel ++ writeOnto 1 [')'] n.children)

/-- A forest is written in the same way whatever follows it. -/
theorem writeOnto_append (depth : Nat) (after : List Char) (f : Forest) :
    writeOnto depth after f = writeOnto depth [] f ++ after := by
  induction f generalizing depth after with
  | nil => rfl
  | leaf l rest ih => simp only [writeOnto]; rw [ih]; simp
  | node label children rest ihc ihr =>
    simp only [writeOnto]
    rw [ihc, ihc (depth + 1) (')' :: writeOnto depth [] rest), ihr]
    simp

end QueryAudit.Notation
