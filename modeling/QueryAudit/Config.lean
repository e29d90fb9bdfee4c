/-!
# QueryAudit.Config

What a user decides about an analysis: which rules are off, which optional rules
are on, and which parser messages are not worth an issue.
-/

namespace QueryAudit

/-- The settings of an analysis. -/
structure Config where
  /-- Keys of rules that are off. -/
  disable : List String
  /-- Keys of optional rules that are on. -/
  enable : List String
  /-- A parser message that contains one of these texts is no issue. -/
  allowedMessages : List String
deriving DecidableEq, Repr

namespace Config

/-- The messages that are allowed when the settings name none. -/
def standardAllowedMessages : List String := ["no viable alternative at character 'D'"]

/-- The settings of a user who decides nothing. -/
def standard : Config := ⟨[], [], standardAllowedMessages⟩

instance : Inhabited Config := ⟨standard⟩

end Config

end QueryAudit
