import QueryAudit.Problem

/-!
# QueryAudit.SourceUnit

A source file that has been parsed: its name, its tree, and what the parser had
to say about it.
-/

namespace QueryAudit

/-- A parsed source file. -/
structure SourceUnit where
  name : String
  tree : Node
  problems : List Problem
deriving DecidableEq, Repr

end QueryAudit
