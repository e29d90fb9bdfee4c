import QueryAudit.Issue
import QueryAudit.Problem
import QueryAudit.SymbolTable

/-!
# QueryAudit.Check

A check of a rule.  It is told the events of a walk one after the other, with
what is known about names at each; it may keep a memory of its own from one
event to the next, and it answers with findings.  A check may also crash, which
is an answer of its own.
-/

namespace QueryAudit

/-- What is known about a rule apart from how it is checked. -/
structure RuleInfo where
  key : String
  name : String
  priority : Priority
  description : String
  /-- Whether the rule is active unless it is disabled. -/
  enabledByDefault : Bool
deriving DecidableEq, Repr

/-- An event of a walk. -/
inductive Event where
  /-- The walk of the unit with this root begins. -/
  | enterSource (root : Node)
  /-- The walk comes to a node. -/
  | enter (node : Node)
  /-- The walk leaves a node; everything below it has been left. -/
  | exit (node : Node)
  /-- The walk of the unit is over. -/
  | exitSource (root : Node)
  /-- The parser's problems are handed out. -/
  | report (log : ProblemLog)
deriving DecidableEq, Repr

/-- What a check sees of its surroundings. -/
structure Context where
  /-- The name of the unit. -/
  unit : String
  /-- The names known after the event. -/
  symbols : SymbolTable
  /-- The issues found in the unit so far. -/
  issues : List Issue
deriving DecidableEq, Repr

/-- A check with its memory. -/
structure Check where
  Memory : Type
  memory : Memory
  /-- The memory after an event and the findings it gives rise to; `none` when
  the check crashes. -/
  step : Context → Event → Memory → Option (Memory × List Finding)

namespace Check

/-- A check that remembers nothing and looks at each node when the walk comes to it. -/
def onEnter (find : Context → Node → List Finding) : Check where
  Memory := Unit
  memory := ()
  step context event _ :=
    match event with
    | .enter node => some ((), find context node)
    | _ => some ((), [])

/-- A check that remembers nothing and looks at the parser's problems. -/
def onReport (find : Context → ProblemLog → List Finding) : Check where
  Memory := Unit
  memory := ()
  step context event _ :=
    match event with
    | .report log => some ((), find context log)
    | _ => some ((), [])

end Check

end QueryAudit
