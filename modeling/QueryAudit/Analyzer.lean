import QueryAudit.Registry
import QueryAudit.Walk

/-!
# QueryAudit.Analyzer

The analysis of a set of units.  The exports of all units are collected first;
then each unit is walked with fresh checks.  A unit that nests too deeply is not
walked at all, and a unit in which a check crashes has no issues; both are
reported as failed.

* `units_analyze` — there is one report per unit, in order and
  under its name.
-/

namespace QueryAudit

/-- What was found in one unit. -/
structure UnitReport where
  unit : String
  issues : List Issue
  /-- The unit could not be analysed. -/
  failed : Bool
deriving DecidableEq, Repr

/-- The report on a unit that was not checked to its end. -/
def UnitReport.failure (u : SourceUnit) : UnitReport := ⟨u.name, [], true⟩

/-- An analysis that is ready to run. -/
structure Analyzer where
  config : Config
  registry : Registry
  /-- The active rules, in order. -/
  rules : List Rule

namespace Analyzer

/-- The analysis with the given settings and rules. -/
def ofRegistry (config : Config) (registry : Registry) : Except UnknownRule Analyzer :=
  match registry.active config with
  | .error e => .error e
  | .ok rules => .ok ⟨config, registry, rules⟩

/-- Fresh checks of the active rules. -/
def checks (a : Analyzer) : List Check := a.rules.map fun rule => rule.check a.config

/-- Whether a unit nests too deeply to be walked. -/
def isTooDeep (u : SourceUnit) : Bool := maxDepth < u.tree.depthByStack

/-- Collect the exports of all units that can be walked. -/
def mapUnits (units : List SourceUnit) : ExportMapper :=
  (units.filter (!isTooDeep ·)).foldl (fun m u => mapTree u.tree m) .initial

/-- Analyse one unit.  After a crash the resolver forgets the unit. -/
def analyzeUnit (a : Analyzer) (r : LocalResolver) (u : SourceUnit) : LocalResolver × UnitReport :=
  if isTooDeep u then (r, .failure u)
  else
    match process u r a.checks with
    | (r, some issues) => (r, ⟨u.name, issues, false⟩)
    | (r, none) => (r.recover, .failure u)

/-- Analyse units one after the other with the same resolver. -/
def analyzeFrom (a : Analyzer) (r : LocalResolver) : List SourceUnit → List UnitReport
  | [] => []
  | u :: us =>
    let (r, report) := a.analyzeUnit r u
    report :: a.analyzeFrom r us

/-- Analyse a set of units. -/
def analyze (a : Analyzer) (units : List SourceUnit) : List UnitReport :=
  a.analyzeFrom (mapUnits units).toLocal units

/-- The report of a unit is under its name. -/
theorem unit_analyzeUnit (a : Analyzer) (r : LocalResolver) (u : SourceUnit) :
    (a.analyzeUnit r u).2.unit = u.name := by
  unfold analyzeUnit
  repeat' split
  all_goals rfl

theorem units_analyzeFrom (a : Analyzer) (r : LocalResolver) (us : List SourceUnit) :
    (a.analyzeFrom r us).map UnitReport.unit = us.map SourceUnit.name := by
  induction us generalizing r with
  | nil => rfl
  | cons u us ih => simp [analyzeFrom, unit_analyzeUnit, ih]

/-- There is one report per unit, in order and under its name. -/
theorem units_analyze (a : Analyzer) (us : List SourceUnit) :
    (a.analyze us).map UnitReport.unit = us.map SourceUnit.name :=
  units_analyzeFrom a _ us

end Analyzer

end QueryAudit
