import QueryAudit.Analyzer
import QueryAudit.Json.Writer
import QueryAudit.Text.Decimal

/-!
# QueryAudit.Report

The written form of reports: for people a line per issue, for programs a JSON
text.

* `ofName_name` — a format is found by its name.
-/

namespace QueryAudit

/-- How reports are written. -/
inductive OutputFormat where
  | human
  | json
deriving DecidableEq, Repr

/-- There is no format of that name. -/
structure UnknownFormat where
  name : String
deriving DecidableEq, Repr

/-- Which name no format has. -/
def UnknownFormat.message (e : UnknownFormat) : String := "Unknown format: " ++ e.name

namespace OutputFormat

/-- The name by which a format is chosen. -/
def name : OutputFormat → String
  | human => "human"
  | json => "json"

/-- The format with a name; `text` is another name of the one for people. -/
def ofName (name : String) : Except UnknownFormat OutputFormat :=
  if name = "human" || name = "text" then .ok human
  else if name = "json" then .ok json
  else .error ⟨name⟩

/-- A format is found by its name. -/
theorem ofName_name (f : OutputFormat) : ofName f.name = .ok f := by
  cases f <;> rfl

end OutputFormat

namespace Report

/-- The priority of an issue: that of its rule, and the lowest for a rule that is
not in the catalogue. -/
def priority (registry : Registry) (i : Issue) : Priority :=
  match registry.info? i.rule with
  | some info => info.priority
  | none => .info

/-! ## for people -/

/-- `unit:line: Priority [Rule] message` and the end of the line. -/
def humanLine (registry : Registry) (unit : String) (i : Issue) : String :=
  unit ++ ":" ++ writeWord i.line ++ ": " ++ (priority registry i).name ++ " [" ++ i.rule ++ "] "
    ++ i.message ++ "\n"

/-- The lines of all issues, in the order of the reports. -/
def humanLines (registry : Registry) (reports : List UnitReport) : List String :=
  reports.flatMap fun r => r.issues.map (humanLine registry r.unit)

/-- Reports for people: a line for each issue. -/
def human (registry : Registry) (reports : List UnitReport) : String :=
  String.join (humanLines registry reports)

/-! ## for programs -/

/-- An issue as a JSON value, with the priority of its rule. -/
def ofIssue (registry : Registry) (i : Issue) : Json :=
  .record [("rule", .text i.rule), ("priority", .text (priority registry i).name),
    ("line", .number (writeWord i.line)), ("message", .text i.message)]

/-- A report as a JSON value. -/
def ofReport (registry : Registry) (r : UnitReport) : Json :=
  .record [("unit", .text r.unit), ("failed", .bool r.failed),
    ("issues", .array (r.issues.map (ofIssue registry)))]

/-- Reports for programs: a JSON array with an object for each unit. -/
def json (registry : Registry) (reports : List UnitReport) : String :=
  Json.write .indented (.array (reports.map (ofReport registry)))

end Report

end QueryAudit
