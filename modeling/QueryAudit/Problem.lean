import QueryAudit.Tree.Basic

/-!
# QueryAudit.Problem

What a parser has to say about a source text, and the log that keeps it.
Complaints about the end of a truncated text are not kept.

* `problems_report` — a reported problem is kept at the end unless it is ignored;
* `problems_ofProblems` — a log of given problems keeps those that are not ignored.
-/

namespace QueryAudit

/-- A syntax problem at a place in the source text. -/
structure Problem where
  position : Position
  message : String
deriving DecidableEq, Repr

namespace Problem

/-- How the message starts when the parser ran off the end of a truncated text. -/
def truncation : String := "mismatched input '<EOF>'"

/-- Whether the problem only says that the text is truncated. -/
def isIgnored (p : Problem) : Bool :=
  truncation.toList.isPrefixOf p.message.toList

/-- The problem with its place, as one line of text. -/
def render (p : Problem) : String :=
  s!" - line {p.position.line.toNat}: {p.position.column.toNat} - " ++ p.message

end Problem

/-- The parser is stopped because of a problem. -/
structure ParseCancelled where
  problem : Problem
deriving DecidableEq, Repr

/-- The word that parsing was given up, and the problem. -/
def ParseCancelled.message (c : ParseCancelled) : String :=
  "parse cancelled:" ++ c.problem.render

/-- The problems that were kept, in the order of their reports. -/
structure ProblemLog where
  problems : List Problem
  /-- Whether a problem that is kept stops the parser. -/
  failOnError : Bool
deriving DecidableEq, Repr

namespace ProblemLog

/-- A log without problems. -/
def empty (failOnError : Bool) : ProblemLog := ⟨[], failOnError⟩

/-- The log of problems collected elsewhere; it does not stop the parser. -/
def ofProblems (problems : List Problem) : ProblemLog :=
  ⟨problems.filter (!·.isIgnored), false⟩

/-- Report a problem.  The second part says whether it stops the parser. -/
def report (log : ProblemLog) (p : Problem) : ProblemLog × Option ParseCancelled :=
  if p.isIgnored then (log, none)
  else
    ({ log with problems := log.problems ++ [p] }, if log.failOnError then some ⟨p⟩ else none)

/-- A reported problem is kept at the end unless it is ignored. -/
theorem problems_report (log : ProblemLog) (p : Problem) :
    (log.report p).1.problems = log.problems ++ [p].filter (!·.isIgnored) := by
  by_cases h : p.isIgnored = true <;> simp [report, h]

/-- The log of given problems keeps those that are not ignored. -/
theorem problems_ofProblems (problems : List Problem) :
    (ofProblems problems).problems = problems.filter (!·.isIgnored) := rfl

end ProblemLog

end QueryAudit
