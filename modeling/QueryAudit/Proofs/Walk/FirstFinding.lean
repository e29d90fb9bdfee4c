import QueryAudit.Proofs.Walk.Crash
import QueryAudit.Proofs.Walk.Raised

/-!
# QueryAudit.Proofs.Walk.FirstFinding

The issues of a unit are the findings of its checks without repetitions: of those with
one rule and one line the first is kept.  `firstPerPlace` says so of a list of issues,
without a log.

* `issues_createAll` — what findings add to a log;
* `exists_first_of_mem` — an issue that is kept is the first for its place;
* `issues_process` — the issues of a unit that is processed without a crash.
-/

namespace QueryAudit

/-- What tells the issues of a unit apart. -/
def Issue.place (i : Issue) : String × UInt32 := (i.rule, i.line)

/-- Of issues with one place, the first. -/
def firstPerPlace : List Issue → List Issue
  | [] => []
  | i :: is => i :: (firstPerPlace is).filter (·.place ≠ i.place)

/-! ## lists of issues -/

/-- No place comes twice. -/
theorem nodup_places_firstPerPlace (is : List Issue) :
    ((firstPerPlace is).map Issue.place).Nodup := by
  induction is with
  | nil => exact List.nodup_nil
  | cons i is ih =>
      rw [firstPerPlace, List.map_cons, List.nodup_cons]
      constructor
      · intro hmem
        obtain ⟨j, hj, hplace⟩ := List.mem_map.1 hmem
        have hne : j.place ≠ i.place := by simpa using (List.mem_filter.1 hj).2
        exact hne hplace
      · exact ih.sublist (List.filter_sublist.map _)

/-- An issue that is kept has none for its place before it. -/
theorem exists_first_of_mem {is : List Issue} {i : Issue} (h : i ∈ firstPerPlace is) :
    ∃ before after, is = before ++ i :: after ∧ ∀ j ∈ before, j.place ≠ i.place := by
  induction is with
  | nil => exact absurd h List.not_mem_nil
  | cons head is ih =>
      rw [firstPerPlace] at h
      rcases List.mem_cons.1 h with rfl | h
      · exact ⟨[], is, rfl, by simp⟩
      · obtain ⟨hmem, hne⟩ := List.mem_filter.1 h
        have hne : i.place ≠ head.place := by simpa using hne
        obtain ⟨before, after, rfl, hbefore⟩ := ih hmem
        exact ⟨head :: before, after, rfl, List.forall_mem_cons.2 ⟨hne.symm, hbefore⟩⟩

/-- Every place keeps an issue. -/
theorem exists_mem_firstPerPlace {is : List Issue} {i : Issue} (h : i ∈ is) :
    ∃ j ∈ firstPerPlace is, j.place = i.place := by
  induction is with
  | nil => exact absurd h List.not_mem_nil
  | cons head is ih =>
      rw [firstPerPlace]
      by_cases hplace : head.place = i.place
      · exact ⟨head, List.mem_cons_self, hplace⟩
      · have htail : i ∈ is := by
          rcases List.mem_cons.1 h with rfl | h
          · exact absurd rfl hplace
          · exact h
        obtain ⟨j, hj, hji⟩ := ih htail
        refine ⟨j, List.mem_cons_of_mem _ (List.mem_filter.2 ⟨hj, ?_⟩), hji⟩
        simpa [hji] using Ne.symm hplace

/-! ## the log -/

theorem covers_eq_true_iff {log : IssueLog} {i : Issue} :
    log.covers i = true ↔ ∃ j ∈ log.issues, j.place = i.place := by
  simp [IssueLog.covers, Issue.place, and_comm]

/-- A finding makes a log cover its place. -/
theorem covers_create (log : IssueLog) (f : Finding) (i : Issue) :
    (log.create f).covers i = (log.covers i || decide (i.place = f.toIssue.place)) := by
  rw [Bool.eq_iff_iff, Bool.or_eq_true, covers_eq_true_iff, covers_eq_true_iff, decide_eq_true_iff,
    IssueLog.create]
  cases hcovers : log.covers f.toIssue with
  | true =>
      refine ⟨Or.inl, ?_⟩
      rintro (hcovered | hplace)
      · exact hcovered
      · rw [hplace]
        exact covers_eq_true_iff.1 hcovers
  | false => simp [or_and_right, exists_or, eq_comm]

/-- **Findings** add to a log the first of them for each place that it does not cover. -/
theorem issues_createAll (log : IssueLog) (fs : List Finding) :
    (log.createAll fs).issues
      = log.issues ++ (firstPerPlace (fs.map Finding.toIssue)).filter fun i => !log.covers i := by
  induction fs generalizing log with
  | nil => simp [IssueLog.createAll, firstPerPlace]
  | cons f fs ih =>
      have hstep : log.createAll (f :: fs) = (log.create f).createAll fs := rfl
      rw [hstep, ih, IssueLog.issues_create, IssueLog.accepts, List.map_cons, firstPerPlace,
        List.filter_cons, List.filter_filter]
      simp only [covers_create, Bool.not_or]
      cases log.covers f.toIssue <;> simp

/-! ## the issues of a unit -/

section

variable {ρ : Type} [Resolver ρ]

/-- All that the checks raise while a unit is processed, one finding after the other. -/
def SourceUnit.findings (u : SourceUnit) (r : ρ) (checks : List Check) : List Finding :=
  (u.raised r checks).flatMap (·.2)

/-- A unit at which no check crashes is processed to its end. -/
theorem exists_issues_of_not_crashes {u : SourceUnit} {r : ρ} {checks : List Check}
    (h : ¬ u.Crashes r checks) : ∃ issues, (process u r checks).2 = some issues := by
  refine Option.ne_none_iff_exists'.1 fun hnone => h ?_
  obtain ⟨met, hmet, hcrash, -⟩ := process_eq_none_iff.1 (Prod.ext rfl hnone)
  exact ⟨met, hmet, hcrash⟩

/-- Then its issues are what is raised without repetitions. -/
theorem issues_eq_firstPerPlace {u : SourceUnit} {r : ρ} {checks : List Check}
    {issues : List Issue} (h : (process u r checks).2 = some issues) :
    issues = firstPerPlace ((u.findings r checks).map Finding.toIssue) := by
  rw [issues_eq_createAll_raised h, issues_createAll]
  simp [IssueLog.empty, IssueLog.covers, SourceUnit.findings]

/-- **The issues of a unit** at which no check crashes: every event comes up, and of what the
checks raise, one after the other, the first for each rule and line is kept, with a line of
at least 1.  So no rule has two issues on one line, and an issue has the message of the
earliest finding for it. -/
theorem issues_process {u : SourceUnit} {r : ρ} {checks : List Check}
    (h : ¬ u.Crashes r checks) :
    (u.raised r checks).map (·.1) = u.events ∧
      ∃ issues, (process u r checks).2 = some issues ∧
        issues = firstPerPlace ((u.findings r checks).map Finding.toIssue) ∧
        (issues.map Issue.place).Nodup ∧
        (∀ f ∈ u.findings r checks, ∃ i ∈ issues, i.place = (f.rule, max f.line 1)) ∧
        ∀ i ∈ issues, 1 ≤ i.line ∧
          ∃ before f after, u.findings r checks = before ++ f :: after ∧
            i = ⟨f.rule, max f.line 1, f.message.getD f.rule⟩ ∧
            ∀ earlier ∈ before, (earlier.rule, max earlier.line 1) ≠ i.place := by
  obtain ⟨issues, hprocess⟩ := exists_issues_of_not_crashes h
  have hissues := issues_eq_firstPerPlace hprocess
  refine ⟨map_fst_raised hprocess, issues, hprocess, hissues, ?_⟩
  rw [hissues]
  refine ⟨nodup_places_firstPerPlace _, fun f hf => ?_, fun i hi => ?_⟩
  · exact exists_mem_firstPerPlace (List.mem_map_of_mem hf)
  · obtain ⟨before, after, heq, hbefore⟩ := exists_first_of_mem hi
    obtain ⟨earlier, rest, hfound, rfl, hrest⟩ := List.map_eq_append_iff.1 heq
    obtain ⟨f, later, rfl, rfl, -⟩ := List.map_eq_cons_iff.1 hrest
    refine ⟨f.line_toIssue_pos, earlier, f, later, hfound, rfl, fun g hg => ?_⟩
    exact hbefore _ (List.mem_map_of_mem hg)

end

/-! ## a unit with repetitions -/

/-- A check that raises a finding on line 0 when the unit begins, one without a message at each
node, and at the end one on line 1 and one on the line that counts the issues so far. -/
def repeatingCheck : Check where
  Memory := Unit
  memory := ()
  step context event _ :=
    match event with
    | .enterSource _ => some ((), [⟨"Repeated", 0, some "begin"⟩])
    | .enter n => some ((), [⟨"Repeated", n.line, none⟩])
    | .report _ => some ((), [⟨"Repeated", 1, some "end"⟩,
        ⟨"Counted", UInt32.ofNat context.issues.length, none⟩])
    | _ => some ((), [])

/-- Two nodes, on the lines 1 and 4. -/
def repeatingUnit : SourceUnit where
  name := "main"
  tree := ⟨⟨"module", none, ⟨1, 0⟩⟩, .node ⟨"expr", none, ⟨4, 0⟩⟩ .nil .nil⟩
  problems := []

/-- Of the ten findings of two such checks four are kept; those on line 0 come first, so that
those on line 1 are dropped. -/
theorem issues_process_repeatingUnit :
    ¬ repeatingUnit.Crashes ExportMapper.initial [repeatingCheck, repeatingCheck] ∧
    (repeatingUnit.findings ExportMapper.initial [repeatingCheck, repeatingCheck]).map
        (fun f => (f.rule, f.line))
      = [("Repeated", 0), ("Repeated", 0), ("Repeated", 1), ("Repeated", 1), ("Repeated", 4),
        ("Repeated", 4), ("Repeated", 1), ("Counted", 2), ("Repeated", 1), ("Counted", 3)] ∧
    ∃ issues,
      (process repeatingUnit ExportMapper.initial [repeatingCheck, repeatingCheck]).2
          = some issues ∧
        (issues.map Issue.place).Nodup ∧
        issues = [⟨"Repeated", 1, "begin"⟩, ⟨"Repeated", 4, "Repeated"⟩, ⟨"Counted", 2, "Counted"⟩,
          ⟨"Counted", 3, "Counted"⟩] := by
  have hissues : (process repeatingUnit ExportMapper.initial [repeatingCheck, repeatingCheck]).2
      = some [⟨"Repeated", 1, "begin"⟩, ⟨"Repeated", 4, "Repeated"⟩, ⟨"Counted", 2, "Counted"⟩,
        ⟨"Counted", 3, "Counted"⟩] := by decide +kernel
  have hcrash : ¬ repeatingUnit.Crashes ExportMapper.initial [repeatingCheck, repeatingCheck] := by
    rintro ⟨met, hmet, hcrash⟩
    rw [process_eq_none_iff.2 ⟨met, hmet, hcrash, rfl⟩] at hissues
    contradiction
  obtain ⟨-, issues, hprocess, -, hnodup, -⟩ := issues_process hcrash
  rw [hissues, Option.some.injEq] at hprocess
  exact ⟨hcrash, by decide +kernel, issues, hprocess ▸ hissues, hnodup, hprocess.symm⟩

end QueryAudit
