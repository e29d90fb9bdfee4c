import QueryAudit.Notation.Lexeme

/-!
# QueryAudit.Notation.Reader

From lexemes to a tree.  The reader keeps the nodes that are still open,
innermost first, each with the children it has so far; a closing bracket turns
the innermost one into a child of the next.  An element without a position of
its own takes the last one that was read, and `1:0` when none was.

* `readHeader_of_not_mem` — an atom without `@` is a kind.
-/

namespace QueryAudit.Notation

/-- A node whose closing bracket has not been read yet. -/
structure OpenNode where
  label : Label
  /-- The children so far, last first. -/
  children : List Element
deriving DecidableEq, Repr

namespace OpenNode

/-- The node with the children it has so far. -/
def close (o : OpenNode) : Node := ⟨o.label, Forest.prependReversed .nil o.children⟩

/-- Add one child. -/
def push (o : OpenNode) (e : Element) : OpenNode := { o with children := e :: o.children }

end OpenNode

/-- The kind and the position that the first atom of a node gives.  It is cut
at its first `@`; without one the position is the last that was read.  The
failure is the text that is no position. -/
def readHeader (position : Position) (header : String) : Except String (String × Position) :=
  match cut '@' header.toList with
  | none => .ok (header, position)
  | some (kind, spec) =>
    match readPosition spec with
    | none => .error (String.ofList spec)
    | some position => .ok (String.ofList kind, position)

/-- An atom without `@` is a kind, and the position stays. -/
theorem readHeader_of_not_mem {position : Position} {header : String}
    (h : '@' ∉ header.toList) : readHeader position header = .ok (header, position) := by
  simp [readHeader, cut_eq_none_iff.2 h]

/-- Read the rest of a tree whose nodes `opened` are still open, innermost
first.  `field` is a label that waits for its element, `position` the last
position that was read. -/
def readFrom (opened : List OpenNode) (field : Option String) (position : Position) :
    List (Lexeme × Nat) → Except ReadError Node
  | [] => .error .unexpectedEnd
  | (.atom name, offset) :: rest =>
    match field, rest with
    | none, (.equals, _) :: rest => readFrom opened (some name) position rest
    | _, _ => .error (.unexpected (.atom name) offset)
  | (.equals, offset) :: _ => .error (.unexpected .equals offset)
  | (.text s given, _) :: rest =>
    match opened with
    | [] => .error .rootNotNode
    | parent :: outer =>
      let position := given.getD position
      readFrom (parent.push (.leaf ⟨s, field, position⟩) :: outer) none position rest
  | (.opening, offset) :: rest =>
    if opened.length = maxDepth then .error (.tooDeep offset)
    else
      match rest with
      | [] => .error .unexpectedEnd
      | (.atom header, offset) :: rest =>
        match readHeader position header with
        | .error spec => .error (.invalidPosition spec offset)
        | .ok (kind, position) =>
          readFrom (⟨⟨kind, field, position⟩, []⟩ :: opened) none position rest
      | (found, offset) :: _ => .error (.unexpected found offset)
  | (.closing, offset) :: rest =>
    match field, opened with
    | none, node :: parent :: outer =>
      readFrom (parent.push (.node node.close) :: outer) none position rest
    | none, [root] =>
      match rest with
      | [] => .ok root.close
      | (found, offset) :: _ => .error (.unexpected found offset)
    | _, _ => .error (.unexpected .closing offset)

/-- Read a tree from its notation. -/
def read (s : String) : Except ReadError Node :=
  match lex s with
  | .error e => .error e
  | .ok lexemes => readFrom [] none ⟨1, 0⟩ lexemes

end QueryAudit.Notation
