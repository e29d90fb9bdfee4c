import QueryAudit.Check
import QueryAudit.Config

/-!
# QueryAudit.Rules.Rule

A rule with the check that looks for breaches of it.
-/

namespace QueryAudit

/-- A rule and how a fresh check of it is made for a unit. -/
structure Rule where
  info : RuleInfo
  check : Config → Check

/-- A breach of the rule at a line. -/
def RuleInfo.finding (rule : RuleInfo) (line : UInt32) (message : String) : Finding :=
  ⟨rule.key, line, some message⟩

/-- Whether a name ends with one of the given texts. -/
def endsWithAny (name : String) (endings : List String) : Bool :=
  endings.any fun ending => ending.toList.isSuffixOf name.toList

end QueryAudit
