import QueryAudit.Proofs.Analyzer.Independence
import QueryAudit.Proofs.Rules.Regular
import QueryAudit.Proofs.Tree.Search

/-!
# QueryAudit.Proofs.Analyzer.Raised

What a run raises, event by event.  `Analyzer.Raises` says that a finding is raised at
one event of one unit; a report has an issue for each of them, and it has no others.

* `raises_iff` — an active rule raises what its check finds when it is alone;
* `exists_issue_iff_raises` — the issues of a report;
* `getElem?_zero_resolverBefore`, `reached_resolverBefore` — how a unit is met.
-/

namespace QueryAudit.Analyzer

/-- The resolver as it is when a run comes to a unit. -/
def resolverBefore (a : Analyzer) (us : List SourceUnit) (i : Nat) : LocalResolver :=
  (us.take i).foldl (fun r u => (a.analyzeUnit r u).1) (mapUnits us).toLocal

theorem resolverBefore_zero (a : Analyzer) (us : List SourceUnit) :
    a.resolverBefore us 0 = (mapUnits us).toLocal := rfl

/-- A run raises a finding at an event of a unit. -/
def Raises (a : Analyzer) (us : List SourceUnit) (i k : Nat) (f : Finding) : Prop :=
  ∃ u event findings, us[i]? = some u ∧
    (u.raised (a.resolverBefore us i) a.checks)[k]? = some (event, findings) ∧ f ∈ findings

/-! ## one unit of a run -/

theorem getElem?_analyzeFrom (a : Analyzer) (r : LocalResolver) (us : List SourceUnit) (i : Nat) :
    (a.analyzeFrom r us)[i]? = us[i]?.map fun u =>
      (a.analyzeUnit ((us.take i).foldl (fun r u => (a.analyzeUnit r u).1) r) u).2 := by
  induction us generalizing r i with
  | nil => rfl
  | cons u us ih =>
      cases i with
      | zero => rfl
      | succ i => exact ih (a.analyzeUnit r u).1 i

/-- The report on a unit is made with the resolver as it is when the run comes to it. -/
theorem getElem?_analyze (a : Analyzer) (us : List SourceUnit) (i : Nat) :
    (a.analyze us)[i]? = us[i]?.map fun u => (a.analyzeUnit (a.resolverBefore us i) u).2 :=
  a.getElem?_analyzeFrom (mapUnits us).toLocal us i

theorem isTooDeep_iff {u : SourceUnit} : isTooDeep u = true ↔ maxDepth < u.tree.depth := by
  rw [isTooDeep, Node.depthByStack_eq_depth]
  exact decide_eq_true_iff

theorem isTooDeep_eq_false {u : SourceUnit} (h : u.tree.depth ≤ maxDepth) :
    isTooDeep u = false :=
  Bool.eq_false_iff.2 (mt isTooDeep_iff.1 (Nat.not_lt.2 h))

/-- Units that do not nest too deeply export all that their trees do. -/
theorem flatMap_exports {us : List SourceUnit} (h : ∀ u ∈ us, u.tree.depth ≤ maxDepth) :
    us.flatMap SourceUnit.exports = us.flatMap fun u => exported u.tree.sites := by
  rw [List.flatMap_def, List.flatMap_def]
  refine congrArg List.flatten (List.map_congr_left fun u hu => ?_)
  rw [SourceUnit.exports, isTooDeep_eq_false (h u hu)]
  rfl

/-- When no check can crash, a unit gets the issues that are raised, and the resolver goes
through it as if there were no checks. -/
theorem analyzeUnit_of_regular {a : Analyzer} (hchecks : ∀ c ∈ a.checks, ∃ key, c.Regular key)
    {u : SourceUnit} (hdepth : u.tree.depth ≤ maxDepth) (r : LocalResolver) :
    a.analyzeUnit r u
      = (u.events.foldl (fun r event => Resolver.on event r) r,
        ⟨u.name, (IssueLog.empty.createAll ((u.raised r a.checks).flatMap (·.2))).issues,
          false⟩) := by
  rw [analyzeUnit, isTooDeep_eq_false hdepth, process_of_regular hchecks]
  rfl

/-- A unit that nests too deeply is passed over. -/
theorem analyzeUnit_of_lt_depth (a : Analyzer) {u : SourceUnit} (hdepth : maxDepth < u.tree.depth)
    (r : LocalResolver) : a.analyzeUnit r u = (r, .failure u) := by
  rw [analyzeUnit, if_pos (isTooDeep_iff.2 hdepth)]

/-- Every unit is met with the exports of all units. -/
theorem getElem?_zero_resolverBefore {a : Analyzer} {us : List SourceUnit}
    (hflat : ∀ u ∈ us, u.tree.mainModulesOutermost = true) (i : Nat) :
    (a.resolverBefore us i).symbols.scopes.frames[0]?
      = some ⟨.reserved, none, (mapUnits us).symbols.scopes.reserved⟩ := by
  have hkeep : ∀ (vs : List SourceUnit) (r : LocalResolver),
      (∀ v ∈ vs, v.tree.mainModulesOutermost = true) →
      r.symbols.scopes.frames[0]?
        = some ⟨.reserved, none, (mapUnits us).symbols.scopes.reserved⟩ →
      (vs.foldl (fun r u => (a.analyzeUnit r u).1) r).symbols.scopes.frames[0]?
        = some ⟨.reserved, none, (mapUnits us).symbols.scopes.reserved⟩ := by
    intro vs
    induction vs with
    | nil => exact fun _ _ h => h
    | cons v vs ih =>
        intro r hflat h
        exact ih _ (fun w hw => hflat w (List.mem_cons_of_mem v hw))
          (getElem?_zero_analyzeUnit (hflat v List.mem_cons_self) h)
  exact hkeep _ _ (fun v hv => hflat v (List.mem_of_mem_take hv)) (getElem?_zero_mapUnits us)

/-- A run takes the second pass from one state that it can be in to another. -/
theorem reached_resolverBefore (a : Analyzer) (us : List SourceUnit) (i : Nat) :
    (a.resolverBefore us i).Reached := by
  have hmap : (mapUnits us).Reached :=
    List.foldlRecOn _ _ .initial fun _ hm u _ => hm.mapTree u.tree
  refine List.foldlRecOn _ _ (.toLocal hmap) fun r hr u _ => ?_
  have hprocess := hr.process u a.checks
  unfold analyzeUnit
  split
  · exact hr
  · cases hrun : process u r a.checks with
    | mk after issues =>
        rw [hrun] at hprocess
        cases issues with
        | some issues => exact hprocess
        | none => exact hprocess.recover

/-! ## the standard rules -/

section

variable {a : Analyzer} {config : Config} (ha : ofRegistry config .standard = .ok a)
include ha

theorem regular_checks : ∀ c ∈ a.checks, ∃ key, c.Regular key := by
  intro c hc
  obtain ⟨rule, hrule, -, rfl⟩ := (mem_checks_iff ha).1 hc
  exact ⟨rule.info.key, Registry.regular_of_mem_standardRules hrule config⟩

/-- **An active rule** raises at an event what its check finds there when it is alone. -/
theorem raises_iff {rule : Rule} (hrule : rule ∈ Registry.standardRules)
    (hactive : Registry.isActive config rule.info = true) {us : List SourceUnit} {i : Nat}
    {u : SourceUnit} (hu : us[i]? = some u) {k : Nat} {f : Finding} :
    a.Raises us i k f ∧ f.rule = rule.info.key ↔
      ∃ found, ((rule.check config).findings u.name
        (views (a.resolverBefore us i) u.events))[k]? = some found ∧ f ∈ found := by
  have hraised := exists_raised_iff (u := u) (r := a.resolverBefore us i) (regular_checks ha) k f
  constructor
  · rintro ⟨⟨v, event, findings, hv, hat, hf⟩, hkey⟩
    cases hu.symm.trans hv
    obtain ⟨c, hc, found, hfindings, hfound⟩ := hraised.1 ⟨event, findings, hat, hf⟩
    obtain ⟨other, hother, -, rfl⟩ := (mem_checks_iff ha).1 hc
    have hotherKey := (Registry.regular_of_mem_standardRules hother config).rule_of_mem_findings
      (List.mem_of_getElem? hfindings) hfound
    have hsame : other = rule := List.inj_on_of_nodup_map Registry.nodup_keys_standardRules
      hother hrule (hotherKey.symm.trans hkey)
    exact ⟨found, hsame ▸ hfindings, hfound⟩
  · rintro ⟨found, hfindings, hf⟩
    have hcheck := (mem_checks_iff ha).2 ⟨rule, hrule, hactive, rfl⟩
    obtain ⟨event, findings, hat, hmem⟩ := hraised.2 ⟨_, hcheck, found, hfindings, hf⟩
    have hkey := (Registry.regular_of_mem_standardRules hrule config).rule_of_mem_findings
      (List.mem_of_getElem? hfindings) hf
    exact ⟨⟨u, event, findings, hu, hat, hmem⟩, hkey⟩

/-- **The report** on a unit has an issue for each rule and line that a finding is raised
for, and no others. -/
theorem exists_issue_iff_raises {us : List SourceUnit} {i : Nat} {u : SourceUnit}
    (hu : us[i]? = some u) (hdepth : u.tree.depth ≤ maxDepth) :
    ∃ report, (a.analyze us)[i]? = some report ∧ report.failed = false ∧
      ∀ rule line, (∃ issue ∈ report.issues, issue.rule = rule ∧ issue.line = line)
        ↔ ∃ k f, a.Raises us i k f ∧ f.rule = rule ∧ max f.line 1 = line := by
  refine ⟨_, by rw [getElem?_analyze, hu, Option.map_some,
    analyzeUnit_of_regular (regular_checks ha) hdepth], rfl, fun rule line => ?_⟩
  rw [exists_issue_createAll]
  constructor
  · rintro (⟨issue, hissue, -⟩ | ⟨f, hf, hkey⟩)
    · exact absurd hissue List.not_mem_nil
    · obtain ⟨⟨event, findings⟩, hat, hf⟩ := List.mem_flatMap.1 hf
      obtain ⟨k, hk⟩ := List.getElem?_of_mem hat
      exact ⟨k, f, ⟨u, event, findings, hu, hk, hf⟩, hkey⟩
  · rintro ⟨k, f, ⟨v, event, findings, hv, hat, hf⟩, hkey⟩
    cases hu.symm.trans hv
    exact Or.inr ⟨f, List.mem_flatMap.2 ⟨_, List.mem_of_getElem? hat, hf⟩, hkey⟩

/-- A unit of any depth: one that nests too deeply is the only one to fail, and it has no
issues. -/
theorem exists_issue_iff_le_and_raises {us : List SourceUnit} {i : Nat} {u : SourceUnit}
    (hu : us[i]? = some u) :
    ∃ report, (a.analyze us)[i]? = some report ∧
      (report.failed = true ↔ maxDepth < u.tree.depth) ∧
      ∀ rule line, (∃ issue ∈ report.issues, issue.rule = rule ∧ issue.line = line)
        ↔ u.tree.depth ≤ maxDepth ∧
          ∃ k f, a.Raises us i k f ∧ f.rule = rule ∧ max f.line 1 = line := by
  by_cases hdepth : u.tree.depth ≤ maxDepth
  · obtain ⟨report, hreport, hfailed, hissues⟩ := exists_issue_iff_raises ha hu hdepth
    refine ⟨report, hreport, ?_, fun rule line => ?_⟩
    · simp [hfailed, hdepth]
    · rw [hissues rule line, and_iff_right hdepth]
  · have hdeep := Nat.not_le.1 hdepth
    refine ⟨.failure u, by rw [getElem?_analyze, hu, Option.map_some,
      analyzeUnit_of_lt_depth a hdeep], ?_, ?_⟩
    · exact ⟨fun _ => hdeep, fun _ => rfl⟩
    · simp [UnitReport.failure, hdepth]

end

end QueryAudit.Analyzer
