import QueryAudit.Proofs.Analyzer.Raised
import QueryAudit.Proofs.Walk.OneRule

/-!
# QueryAudit.Proofs.Analyzer.Separation

Rules do not interfere.  Regular checks leave the resolver as if there were none, and the
issues of a rule are made of its own findings, so that the issues of a rule do not depend
on which others are active.

* `resolverBefore_congr` — what a run comes to a unit with does not depend on the checks;
* `issuesOf_analyzeUnit` — the issues of one rule;
* `rules_separate` — the issues of a rule under two settings.
-/

namespace QueryAudit

/-- The issues of one rule in a report, in their order. -/
def UnitReport.issuesOf (key : String) (report : UnitReport) : List Issue :=
  report.issues.filter (·.rule = key)

/-- The settings reach the checks of the standard rules by the allowed messages alone. -/
theorem Registry.check_congr {rule : Rule} (h : rule ∈ standardRules) {config config' : Config}
    (hallowed : config.allowedMessages = config'.allowedMessages) :
    rule.check config = rule.check config' := by
  simp only [standardRules, List.mem_cons, List.not_mem_nil, or_false] at h
  rcases h with rfl | rfl | rfl | rfl | rfl | rfl | rfl | rfl | rfl | rfl | rfl | rfl | rfl | rfl
  case inr.inr.inr.inr.inr.inl => exact congrArg Rules.parseProblemCheck hallowed
  all_goals rfl

namespace Analyzer

/-- Two analyses with regular checks come to a unit with the same resolver. -/
theorem resolverBefore_congr {a a' : Analyzer} (hchecks : ∀ c ∈ a.checks, ∃ key, c.Regular key)
    (hchecks' : ∀ c ∈ a'.checks, ∃ key, c.Regular key) (us : List SourceUnit) (i : Nat) :
    a.resolverBefore us i = a'.resolverBefore us i := by
  have hstep : (fun r u => (a.analyzeUnit r u).1) = fun r u => (a'.analyzeUnit r u).1 := by
    funext r u
    rcases Nat.lt_or_ge maxDepth u.tree.depth with hdeep | hdepth
    · rw [analyzeUnit_of_lt_depth a hdeep, analyzeUnit_of_lt_depth a' hdeep]
    · rw [analyzeUnit_of_regular hchecks hdepth, analyzeUnit_of_regular hchecks' hdepth]
  rw [resolverBefore, resolverBefore, hstep]

section

variable {a : Analyzer} {config : Config} (ha : ofRegistry config .standard = .ok a)
include ha

/-- **The issues of an active rule** are made of what its check finds alone. -/
theorem issuesOf_analyzeUnit {rule : Rule} (hrule : rule ∈ Registry.standardRules)
    (hactive : Registry.isActive config rule.info = true) {u : SourceUnit}
    (hdepth : u.tree.depth ≤ maxDepth) (r : LocalResolver) :
    (a.analyzeUnit r u).2.issuesOf rule.info.key
      = (IssueLog.empty.createAll
        ((rule.check config).findings u.name (views r u.events)).flatten).issues := by
  have hregular : ∀ other ∈ Registry.standardRules.filter fun rule =>
      Registry.isActive config rule.info, (other.check config).Regular other.info.key :=
    fun other h => Registry.regular_of_mem_standardRules (List.mem_of_mem_filter h) config
  have hnodup : ((Registry.standardRules.filter fun rule =>
      Registry.isActive config rule.info).map (·.info.key)).Nodup :=
    Registry.nodup_keys_standardRules.sublist (List.filter_sublist.map _)
  rw [analyzeUnit_of_regular (regular_checks ha) hdepth, checks_eq_map ha]
  have hfilter := filter_raised hregular hnodup (List.mem_filter.2 ⟨hrule, hactive⟩) u r
  rw [← hfilter, ← List.flatMap_def, ← List.filter_flatMap]
  exact congrArg IssueLog.issues (IssueLog.ofRule_createAll rule.info.key .empty _)

end

end Analyzer

/-- **Separation of rules**: let two settings make a rule active and allow the same messages.
Then every unit gets the same issues of that rule under both, and it fails under both or
under none, whichever other rules are active. -/
theorem rules_separate {config config' : Config} {a a' : Analyzer}
    (ha : Analyzer.ofRegistry config .standard = .ok a)
    (ha' : Analyzer.ofRegistry config' .standard = .ok a')
    (hallowed : config.allowedMessages = config'.allowedMessages) {rule : Rule}
    (hrule : rule ∈ Registry.standardRules)
    (hactive : Registry.isActive config rule.info = true)
    (hactive' : Registry.isActive config' rule.info = true) (us : List SourceUnit) :
    (a.analyze us).map (fun report => (report.issuesOf rule.info.key, report.failed))
      = (a'.analyze us).map fun report => (report.issuesOf rule.info.key, report.failed) := by
  have hregular := Analyzer.regular_checks ha
  have hregular' := Analyzer.regular_checks ha'
  refine List.ext_getElem? fun i => ?_
  rw [List.getElem?_map, List.getElem?_map, Analyzer.getElem?_analyze, Analyzer.getElem?_analyze,
    Analyzer.resolverBefore_congr hregular hregular']
  cases us[i]? with
  | none => rfl
  | some u =>
      rcases Nat.lt_or_ge maxDepth u.tree.depth with hdeep | hdepth
      · simp only [Option.map_some, Analyzer.analyzeUnit_of_lt_depth _ hdeep]
      · simp only [Option.map_some, Analyzer.issuesOf_analyzeUnit ha hrule hactive hdepth,
          Analyzer.issuesOf_analyzeUnit ha' hrule hactive' hdepth,
          Registry.check_congr hrule hallowed]
        rw [Analyzer.analyzeUnit_of_regular hregular hdepth,
          Analyzer.analyzeUnit_of_regular hregular' hdepth]

/-- A unit with a function without types and an if expression on one line, and another if
expression on the next. -/
def crossedUnit : SourceUnit where
  name := "main"
  tree := ⟨⟨"module", none, ⟨1, 0⟩⟩,
    .node ⟨Kind.functionDecl, none, ⟨2, 0⟩⟩
      (.leaf ⟨"f", some Field.name, ⟨2, 0⟩⟩
      (.node ⟨Kind.ifExpr, none, ⟨2, 0⟩⟩
        (.node ⟨"expr", some Field.condition, ⟨2, 0⟩⟩ .nil .nil) .nil))
    (.node ⟨Kind.ifExpr, none, ⟨3, 0⟩⟩
      (.node ⟨"expr", some Field.condition, ⟨3, 0⟩⟩ .nil .nil) .nil)⟩
  problems := []

/-- The rule on conditions raises the same two issues when the rule on function types, which
has one on the same line, is off. -/
theorem rules_separate_crossedUnit : ∃ a a',
    Analyzer.ofRegistry .standard .standard = .ok a ∧
    Analyzer.ofRegistry ⟨[Rules.functionTyping.key], [], Config.standardAllowedMessages⟩ .standard
      = .ok a' ∧
    ((a.analyze [crossedUnit]).map fun report => report.issues.map Issue.rule)
      = [[Rules.functionTyping.key, Rules.booleanCondition.key, Rules.booleanCondition.key]] ∧
    ((a'.analyze [crossedUnit]).map fun report => report.issues.map Issue.rule)
      = [[Rules.booleanCondition.key, Rules.booleanCondition.key]] ∧
    (a.analyze [crossedUnit]).map (fun report =>
        (report.issuesOf Rules.booleanCondition.key, report.failed))
      = (a'.analyze [crossedUnit]).map fun report =>
        (report.issuesOf Rules.booleanCondition.key, report.failed) := by
  refine ⟨_, _, rfl, rfl, by decide +kernel, by decide +kernel, ?_⟩
  have hrule : ⟨Rules.booleanCondition, fun _ => Rules.booleanConditionCheck⟩
      ∈ Registry.standardRules := by
    simp [Registry.standardRules]
  exact @rules_separate .standard
    ⟨[Rules.functionTyping.key], [], Config.standardAllowedMessages⟩ _ _ rfl rfl rfl _ hrule rfl
    (by decide) [crossedUnit]

end QueryAudit
