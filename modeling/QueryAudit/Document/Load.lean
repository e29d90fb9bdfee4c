import QueryAudit.Document.Reader
import QueryAudit.Notation.Reader

/-!
# QueryAudit.Document.Load

Units from files.  A file whose name has the extension `xqt` holds the notation
of a tree; its unit is named after the path and has no problems.  Any other file
holds a unit as a JSON document, whose brackets are counted before it is read.

* `le_bracketDepthFrom` — the count never forgets how deep it has been.
-/

namespace QueryAudit.Document

/-- Why a file gives no unit. -/
inductive LoadError where
  /-- The file cannot be read, or is no UTF-8 text. -/
  | unreadable (path : String)
  /-- The text is no JSON document of a unit. -/
  | invalidDocument (path : String)
  /-- The brackets of the document nest more deeply than those of any tree can. -/
  | tooDeep (path : String)
  /-- The text is not the notation of a tree. -/
  | invalidNotation (path : String) (cause : Notation.ReadError)
deriving DecidableEq, Repr

/-- Why a file gives no unit, in words. -/
def LoadError.message : LoadError → String
  | .unreadable path => "failed to read " ++ path
  | .invalidDocument path => "invalid unit document " ++ path
  | .tooDeep path => "tree in " ++ path ++ s!" nests deeper than {maxDepth} levels"
  | .invalidNotation path cause =>
    "invalid tree notation in " ++ path ++ ": " ++ cause.message

/-! ## paths -/

/-- The extension of files that hold the notation of a tree. -/
def notationExtension : List Char := ['x', 'q', 't']

/-- The last part of a path; there is none when it leads to a parent directory. -/
def fileName? (path : List Char) : Option (List Char) :=
  match ((path.splitOn '/').filter fun part => part ≠ [] && part ≠ ['.']).getLast? with
  | some name => if name = ['.', '.'] then none else some name
  | none => none

/-- What follows the last dot of a file name, unless the name starts with that dot. -/
def extension? (path : String) : Option (List Char) :=
  match fileName? path.toList with
  | none => none
  | some name =>
    match cut '.' name.reverse with
    | some (extension, before) => if before.isEmpty then none else some extension.reverse
    | none => none

/-! ## depth -/

/-- Where a count of brackets stands in a JSON text. -/
inductive Place where
  | outside
  | inString
  /-- Behind a backslash in a string. -/
  | escaped
deriving DecidableEq, Repr

/-- The largest number of open brackets in a text, from a place with `depth` of
them open and at most `deepest` before. -/
def bracketDepthFrom (place : Place) (depth deepest : Nat) : List Char → Nat
  | [] => deepest
  | c :: rest =>
    match place with
    | .escaped => bracketDepthFrom .inString depth deepest rest
    | .inString =>
      if c = '\\' then bracketDepthFrom .escaped depth deepest rest
      else if c = '"' then bracketDepthFrom .outside depth deepest rest
      else bracketDepthFrom .inString depth deepest rest
    | .outside =>
      if c = '"' then bracketDepthFrom .inString depth deepest rest
      else if c = '\x7b' || c = '[' then
        bracketDepthFrom .outside (depth + 1) (max deepest (depth + 1)) rest
      else if c = '\x7d' || c = ']' then bracketDepthFrom .outside (depth - 1) deepest rest
      else bracketDepthFrom .outside depth deepest rest

/-- The largest number of open brackets in a JSON text, those in strings apart. -/
def bracketDepth (s : String) : Nat := bracketDepthFrom .outside 0 0 s.toList

/-- The brackets of a unit whose tree is `maxDepth` nodes deep: an object and an
array for each node, the document, and the innermost tokens. -/
def maxBracketDepth : Nat := 2 * maxDepth + 2

/-- What is counted is never forgotten. -/
theorem le_bracketDepthFrom (place : Place) (depth deepest : Nat) (cs : List Char) :
    deepest ≤ bracketDepthFrom place depth deepest cs := by
  fun_induction bracketDepthFrom place depth deepest cs <;> omega

/-! ## files -/

/-- The unit in the text of a file. -/
def ofText (path content : String) : Except LoadError SourceUnit :=
  if extension? path = some notationExtension then
    match Notation.read content with
    | .error cause => .error (.invalidNotation path cause)
    | .ok tree => .ok ⟨path, tree, []⟩
  else if maxBracketDepth < bracketDepth content then .error (.tooDeep path)
  else
    match (Json.read content).bind unit? with
    | none => .error (.invalidDocument path)
    | some u => .ok u

/-- The unit in a file; `none` stands for a file that cannot be read. -/
def load (path : String) (content : Option ByteArray) : Except LoadError SourceUnit :=
  match content.bind String.fromUTF8? with
  | none => .error (.unreadable path)
  | some content => ofText path content

end QueryAudit.Document
