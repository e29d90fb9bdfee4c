/-!
# QueryAudit.Issue

What checks find.  A `Finding` is raised by a check; the log of a unit makes an
`Issue` of it, unless it already has one for the same rule and line.

* `line_toIssue_pos` — the line of an issue is at least 1;
* `issues_create` — a log grows by the new issue only.
-/

namespace QueryAudit

/-- How much a rule matters. -/
inductive Priority where
  | critical
  | major
  | minor
  | info
deriving DecidableEq, Repr

/-- The name of a priority in reports. -/
def Priority.name : Priority → String
  | critical => "Critical"
  | major => "Major"
  | minor => "Minor"
  | info => "Info"

/-- A breach of a rule, as a check raises it. -/
structure Finding where
  rule : String
  line : UInt32
  message : Option String
deriving DecidableEq, Repr

/-- A breach of a rule, as it is reported. -/
structure Issue where
  rule : String
  line : UInt32
  message : String
deriving DecidableEq, Repr

/-- Lines count from 1, and a finding without a message has the key of its rule
for one. -/
def Finding.toIssue (f : Finding) : Issue :=
  ⟨f.rule, max f.line 1, f.message.getD f.rule⟩

theorem toNat_max_one (line : UInt32) : (max line 1).toNat = max line.toNat 1 := by
  have hmax : max line 1 = if line ≤ 1 then 1 else line := rfl
  rw [hmax]
  split
  · next hle =>
      have hle : line.toNat ≤ 1 := UInt32.le_iff_toNat_le.1 hle
      exact (Nat.max_eq_right hle).symm
  · next hlt =>
      have hlt : ¬ line.toNat ≤ 1 := fun hle => hlt (UInt32.le_iff_toNat_le.2 hle)
      omega

/-- Only line 0 is moved. -/
theorem max_one_eq_self {line : UInt32} (h : line ≠ 0) : max line 1 = line := by
  have hpos : line.toNat ≠ 0 := fun heq => h (UInt32.toNat_inj.1 heq)
  rw [← UInt32.toNat_inj, toNat_max_one]
  omega

/-- The line of an issue is at least 1. -/
theorem Finding.line_toIssue_pos (f : Finding) : 1 ≤ f.toIssue.line := by
  rw [toIssue, UInt32.le_iff_toNat_le, toNat_max_one]
  exact Nat.le_max_right _ _

/-- The issues of one unit in the order in which they were found. -/
structure IssueLog where
  issues : List Issue
deriving DecidableEq, Repr

namespace IssueLog

/-- A log without issues. -/
def empty : IssueLog := ⟨[]⟩

/-- The issue for a rule and a line. -/
def find? (log : IssueLog) (rule : String) (line : UInt32) : Option Issue :=
  log.issues.find? fun i => i.line == line && i.rule == rule

/-- Whether there is an issue for the rule and the line of another. -/
def covers (log : IssueLog) (i : Issue) : Bool :=
  log.issues.any fun j => j.line == i.line && j.rule == i.rule

/-- Keep a finding as an issue, unless there is one for its rule and line. -/
def create (log : IssueLog) (f : Finding) : IssueLog :=
  if log.covers f.toIssue then log else ⟨log.issues ++ [f.toIssue]⟩

/-- Whether a finding would be kept. -/
def accepts (log : IssueLog) (f : Finding) : Bool := !log.covers f.toIssue

/-- Keep findings one after the other. -/
def createAll (log : IssueLog) (fs : List Finding) : IssueLog := fs.foldl create log

theorem createAll_append (log : IssueLog) (as bs : List Finding) :
    log.createAll (as ++ bs) = (log.createAll as).createAll bs :=
  List.foldl_append

/-- A finding that is kept stands at the end, and nothing else changes. -/
theorem issues_create (log : IssueLog) (f : Finding) :
    (log.create f).issues = log.issues ++ if log.accepts f then [f.toIssue] else [] := by
  unfold create accepts
  cases log.covers f.toIssue <;> simp

end IssueLog

end QueryAudit
