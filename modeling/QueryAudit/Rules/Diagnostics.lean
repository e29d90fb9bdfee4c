import QueryAudit.Rules.Rule

/-!
# QueryAudit.Rules.Diagnostics

The rule that the parser has nothing to complain about.
-/

namespace QueryAudit.Rules

/-- The rule that units parse without problems. -/
def parseProblem : RuleInfo where
  key := "ParseError"
  name := "Code Parsing Error"
  priority := .info
  description := "Catches parsing errors. The code may contain a syntax error, or use syntax "
    ++ "the parser cannot process."
  enabledByDefault := true

/-- Whether a message contains one of the allowed texts. -/
def isAllowed (allowed : List String) (message : String) : Bool :=
  allowed.any fun part => occursIn part.toList message.toList

/-- The parser has no problem with the unit, those apart that are allowed or have
no line. -/
def parseProblemCheck (allowed : List String) : Check := .onReport fun _ log =>
  (log.problems.filter fun p => 0 < p.position.line && !isAllowed allowed p.message).map
    fun p => parseProblem.finding p.position.line p.message

end QueryAudit.Rules
