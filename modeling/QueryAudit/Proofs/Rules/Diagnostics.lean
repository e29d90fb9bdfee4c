import Mathlib.Data.List.Infix
import QueryAudit.Proofs.Rules.Regular
import QueryAudit.Proofs.Walk.AmongOthers

/-!
# QueryAudit.Proofs.Rules.Diagnostics

What becomes of the parser's problems.  A problem counts when it is on a line, does not
only say that the text is truncated, and contains no allowed text; `firstOnLines` are those
that count and have none that counts before them on their line.

* `ProblemLog.reportAll_eq` — a log that problems are reported to, one after the other;
* `selfContained_parseProblemCheck` — what the rule on parsing finds;
* `issues_createAll_countingFindings` — of the problems that count, the first on each line is kept;
* `problems_reach_report` — the issues of the rule among those of any other checks.
-/

namespace QueryAudit

/-! ## the log of problems -/

namespace Problem

/-- The message says that the text is truncated. -/
def IsTruncation (p : Problem) : Prop := truncation.toList <+: p.message.toList

instance : DecidablePred IsTruncation := fun p =>
  inferInstanceAs (Decidable (truncation.toList <+: p.message.toList))

theorem isIgnored_iff {p : Problem} : p.isIgnored = true ↔ p.IsTruncation :=
  List.isPrefixOf_iff_prefix

end Problem

namespace ProblemLog

/-- Report problems one after the other.  The second part is the answer to each. -/
def reportAll (log : ProblemLog) : List Problem → ProblemLog × List (Option ParseCancelled)
  | [] => (log, [])
  | p :: ps =>
    let (after, answers) := (log.report p).1.reportAll ps
    (after, (log.report p).2 :: answers)

theorem report_eq (log : ProblemLog) (p : Problem) :
    log.report p = ({ log with problems := log.problems ++ [p].filter (¬ ·.IsTruncation) },
      if log.failOnError ∧ ¬ p.IsTruncation then some ⟨p⟩ else none) := by
  by_cases h : p.IsTruncation
  · simp [report, Problem.isIgnored_iff.2 h, h]
  · simp [report, Bool.eq_false_iff.2 (mt Problem.isIgnored_iff.1 h), h]

/-- **Reported problems** are kept in order, those about a truncated text apart; each that is
kept stops the parser if the log says so. -/
theorem reportAll_eq (log : ProblemLog) (ps : List Problem) :
    log.reportAll ps = ({ log with problems := log.problems ++ ps.filter (¬ ·.IsTruncation) },
      ps.map fun p => if log.failOnError ∧ ¬ p.IsTruncation then some ⟨p⟩ else none) := by
  induction ps generalizing log with
  | nil => simp [reportAll]
  | cons p ps ih =>
      rw [reportAll, report_eq]
      dsimp only
      rw [ih]
      by_cases h : p.IsTruncation <;> simp [h]

end ProblemLog

/-! ## problems that count -/

/-- What makes a problem an issue when it is alone. -/
structure Problem.Counts (allowed : List String) (p : Problem) : Prop where
  line_pos : 0 < p.position.line
  not_isTruncation : ¬ p.IsTruncation
  not_infix : ∀ part ∈ allowed, ¬ part.toList <:+: p.message.toList

namespace Rules

theorem isAllowed_eq_true_iff {allowed : List String} {message : String} :
    isAllowed allowed message = true ↔ ∃ part ∈ allowed, part.toList <:+: message.toList := by
  simp [isAllowed, occursIn_iff]

end Rules

theorem Problem.counts_iff {allowed : List String} {p : Problem} : p.Counts allowed ↔
    (0 < p.position.line ∧ Rules.isAllowed allowed p.message = false) ∧ p.isIgnored = false := by
  rw [← Bool.not_eq_true, ← Bool.not_eq_true, Rules.isAllowed_eq_true_iff, isIgnored_iff]
  constructor
  · rintro ⟨hline, htruncation, hinfix⟩
    exact ⟨⟨hline, fun ⟨part, hpart, hin⟩ => hinfix part hpart hin⟩, htruncation⟩
  · rintro ⟨⟨hline, hallowed⟩, htruncation⟩
    exact ⟨hline, htruncation, fun part hpart hin => hallowed ⟨part, hpart, hin⟩⟩

instance (allowed : List String) : DecidablePred (Problem.Counts allowed) := fun _ =>
  decidable_of_iff _ Problem.counts_iff.symm

/-- The problems that count and have none before them on their line that counts too. -/
def firstOnLines (allowed : List String) (ps : List Problem) : List Problem :=
  (ps.zipIdx.filter fun entry => entry.1.Counts allowed ∧
    ∀ q ∈ ps.take entry.2, q.Counts allowed → q.position.line ≠ entry.1.position.line).map Prod.fst

/-- Problems at the end are looked at in the light of those before them. -/
theorem firstOnLines_concat (allowed : List String) (ps : List Problem) (p : Problem) :
    firstOnLines allowed (ps ++ [p]) = firstOnLines allowed ps ++
      if p.Counts allowed ∧ ∀ q ∈ ps, q.Counts allowed → q.position.line ≠ p.position.line
      then [p] else [] := by
  rw [firstOnLines, List.zipIdx_append, List.filter_append, List.map_append]
  congr 1
  · rw [firstOnLines]
    refine congrArg (List.map Prod.fst) (List.filter_congr fun entry hentry => ?_)
    obtain ⟨hlt, -⟩ := List.mem_zipIdx' hentry
    rw [List.take_append_of_le_length (Nat.le_of_lt hlt)]
  · rw [List.zipIdx_singleton, List.filter_cons, List.filter_nil,
      List.take_left' (Nat.zero_add _).symm]
    simp only [decide_eq_true_eq]
    split <;> rfl

/-- **A problem that does not count** suppresses no other. -/
theorem firstOnLines_of_not_counts {allowed : List String} {p : Problem} (h : ¬ p.Counts allowed)
    (before after : List Problem) :
    firstOnLines allowed (before ++ p :: after) = firstOnLines allowed (before ++ after) := by
  induction after using List.reverseRecOn with
  | nil => rw [firstOnLines_concat, if_neg fun hp => h hp.1, List.append_nil, List.append_nil]
  | append_singleton after q ih =>
      rw [← List.cons_append, ← List.append_assoc, firstOnLines_concat, ih, ← List.append_assoc,
        firstOnLines_concat]
      congr 2
      simp [or_imp, forall_and, h]

/-! ## the rule on parsing -/

/-- What a check finds at the end of a unit, when it looks at nothing but the problems. -/
def Event.atReport (find : ProblemLog → List Finding) : Event → List Finding
  | .report log => find log
  | _ => []

/-- The walk over a tree hands out no problems. -/
theorem Forest.flatMap_atReport_events (find : ProblemLog → List Finding) (f : Forest) :
    f.events.flatMap (Event.atReport find) = [] := by
  induction f with
  | nil => rfl
  | leaf l rest ih => exact ih
  | node label children rest ihc ihr => simp [events, Event.atReport, ihc, ihr]

theorem SourceUnit.flatMap_atReport_events (find : ProblemLog → List Finding) (u : SourceUnit) :
    u.events.flatMap (Event.atReport find) = find (.ofProblems u.problems) := by
  rw [u.events_eq, Node.events]
  simp [Event.atReport, Forest.flatMap_atReport_events]

namespace Rules

/-- The findings for the problems that count. -/
def countingFindings (allowed : List String) (ps : List Problem) : List Finding :=
  (ps.filter (·.Counts allowed)).map fun p => parseProblem.finding p.position.line p.message

/-- The findings for the problems that have a line and are not allowed. -/
def problemFindings (allowed : List String) (log : ProblemLog) : List Finding :=
  (log.problems.filter fun p => 0 < p.position.line && !isAllowed allowed p.message).map
    fun p => parseProblem.finding p.position.line p.message

theorem problemFindings_ofProblems (allowed : List String) (ps : List Problem) :
    problemFindings allowed (.ofProblems ps) = countingFindings allowed ps := by
  rw [problemFindings, ProblemLog.problems_ofProblems, List.filter_filter, countingFindings]
  refine congrArg (List.map _) (List.filter_congr fun p _ => ?_)
  rw [Bool.eq_iff_iff, decide_eq_true_iff, Problem.counts_iff]
  simp

theorem selfContained_parseProblemCheck (allowed : List String) :
    (parseProblemCheck allowed).SelfContained (fun memory _ => memory)
      fun _ event => event.atReport (problemFindings allowed) := by
  intro context event memory
  cases event <;> rfl

theorem rule_of_mem_atReport {allowed : List String} {event : Event} {f : Finding}
    (h : f ∈ event.atReport (problemFindings allowed)) : f.rule = parseProblem.key := by
  cases event with
  | report log =>
      obtain ⟨p, -, rfl⟩ := List.mem_map.1 h
      rfl
  | _ => exact absurd h List.not_mem_nil

/-- The issue for a problem. -/
def problemIssue (p : Problem) : Issue := ⟨parseProblem.key, p.position.line, p.message⟩

theorem max_line_of_counts {allowed : List String} {p : Problem} (h : p.Counts allowed) :
    max p.position.line 1 = p.position.line := by
  refine max_one_eq_self fun hzero => ?_
  have hpos := h.line_pos
  rw [hzero] at hpos
  exact absurd hpos (by decide)

theorem toIssue_finding {allowed : List String} {p : Problem} (h : p.Counts allowed) :
    (parseProblem.finding p.position.line p.message).toIssue = problemIssue p := by
  rw [problemIssue, RuleInfo.finding, Finding.toIssue, max_line_of_counts h, Option.getD_some]

theorem countingFindings_concat (allowed : List String) (ps : List Problem) (p : Problem) :
    countingFindings allowed (ps ++ [p]) = countingFindings allowed ps ++
      if p.Counts allowed then [parseProblem.finding p.position.line p.message] else [] := by
  rw [countingFindings, List.filter_append, List.map_append, ← countingFindings]
  by_cases h : p.Counts allowed <;> simp [h]

/-- A problem that counts is new when none that counts has its line. -/
theorem accepts_countingFindings {allowed : List String} {p : Problem} (h : p.Counts allowed)
    (ps : List Problem) :
    (IssueLog.empty.createAll (countingFindings allowed ps)).accepts
        (parseProblem.finding p.position.line p.message) = true ↔
      ∀ q ∈ ps, q.Counts allowed → q.position.line ≠ p.position.line := by
  have hexists : (∃ issue ∈ (IssueLog.empty.createAll (countingFindings allowed ps)).issues,
      issue.rule = parseProblem.key ∧ issue.line = p.position.line) ↔
      ∃ q ∈ ps, q.Counts allowed ∧ q.position.line = p.position.line := by
    rw [exists_issue_createAll]
    constructor
    · rintro (⟨issue, hissue, -⟩ | ⟨f, hf, -, hline⟩)
      · exact absurd hissue List.not_mem_nil
      · obtain ⟨q, hq, rfl⟩ := List.mem_map.1 hf
        obtain ⟨hq, hcounts⟩ := List.mem_filter.1 hq
        have hcounts : q.Counts allowed := of_decide_eq_true hcounts
        exact ⟨q, hq, hcounts, (max_line_of_counts hcounts).symm.trans hline⟩
    · rintro ⟨q, hq, hcounts, hline⟩
      have hmem : parseProblem.finding q.position.line q.message ∈ countingFindings allowed ps :=
        List.mem_map_of_mem (List.mem_filter.2 ⟨hq, decide_eq_true hcounts⟩)
      exact Or.inr ⟨_, hmem, rfl, (max_line_of_counts hcounts).trans hline⟩
  rw [IssueLog.accepts, toIssue_finding h, Bool.not_eq_true', ← Bool.not_eq_true,
    covers_eq_true_iff]
  simp only [Issue.place, problemIssue, Prod.mk.injEq, hexists, not_exists, not_and, ne_eq]

/-- **The findings for the problems that count** leave the issues for the first on each
line. -/
theorem issues_createAll_countingFindings (allowed : List String) (ps : List Problem) :
    (IssueLog.empty.createAll (countingFindings allowed ps)).issues
      = (firstOnLines allowed ps).map problemIssue := by
  induction ps using List.reverseRecOn with
  | nil => rfl
  | append_singleton ps p ih =>
      rw [firstOnLines_concat, countingFindings_concat, IssueLog.createAll_append,
        List.map_append, ← ih]
      by_cases h : p.Counts allowed
      · have hissues := (IssueLog.empty.createAll (countingFindings allowed ps)).issues_create
          (parseProblem.finding p.position.line p.message)
        rw [toIssue_finding h] at hissues
        rw [if_pos h]
        refine hissues.trans ?_
        simp only [accepts_countingFindings h, h, true_and]
        split <;> rfl
      · rw [if_neg h, if_neg fun hp => h hp.1]
        exact (List.append_nil _).symm

/-! ## a unit -/

/-- **The problems of a unit** in its report.  Let one of the checks be that of the rule on
parsing, and let the others spare this rule.  Then only another check can crash; without a
crash the issues of the rule are, in the order of the problems, those of the problems that
count and have none that counts before them on their line, each with the message of its
problem.  A problem that does not count suppresses no other.  The problems that the check is
handed are all but those about a truncated text, just as if they had been reported one after
the other, and such a report stops the parser exactly if it is kept in a log that says so. -/
theorem problems_reach_report {ρ : Type} [Resolver ρ] (u : SourceUnit) (r : ρ)
    (allowed : List String) {checks : List Check} {i : Nat}
    (hi : checks[i]? = some (parseProblemCheck allowed))
    (hothers : ∀ j c, checks[j]? = some c → j ≠ i → c.Spares parseProblem.key) :
    ((process u r checks).2 = none ↔
      ∃ call ∈ u.callLog r checks, call.number ≠ i ∧ call.answer = none) ∧
    (∀ issues, (process u r checks).2 = some issues →
      issues.filter (·.rule = parseProblem.key)
        = (firstOnLines allowed u.problems).map fun p =>
          ⟨parseProblem.key, p.position.line, p.message⟩) ∧
    (∀ before p after, u.problems = before ++ p :: after → ¬ p.Counts allowed →
      firstOnLines allowed u.problems = firstOnLines allowed (before ++ after)) ∧
    (ProblemLog.ofProblems u.problems).problems = u.problems.filter (¬ ·.IsTruncation) ∧
    ∀ failOnError,
      (ProblemLog.empty failOnError).reportAll u.problems
        = (⟨(ProblemLog.ofProblems u.problems).problems, failOnError⟩,
          u.problems.map fun p => if failOnError ∧ ¬ p.IsTruncation then some ⟨p⟩ else none) := by
  have hself := selfContained_parseProblemCheck allowed
  have hkept : (ProblemLog.ofProblems u.problems).problems
      = u.problems.filter (¬ ·.IsTruncation) := by
    rw [ProblemLog.problems_ofProblems]
    refine List.filter_congr fun p _ => ?_
    rw [Bool.eq_iff_iff, decide_eq_true_iff, ← Problem.isIgnored_iff]
    simp
  refine ⟨hself.process_eq_none_iff (m := ()) hi, fun issues hissues => ?_,
    fun before p after hproblems hp => ?_, hkept, fun failOnError => ?_⟩
  · rw [hself.filter_process (m := ()) hi hothers (fun event f hf => rule_of_mem_atReport hf)
      hissues, SourceUnit.flatMap_atReport_events, problemFindings_ofProblems,
      issues_createAll_countingFindings]
    rfl
  · rw [hproblems, firstOnLines_of_not_counts hp]
  · rw [ProblemLog.reportAll_eq, hkept]
    rfl

/-- On line 2 a problem about a truncated text, one with an allowed text, and two that count;
between them one without a line and one on line 1. -/
def complainingUnit : SourceUnit where
  name := "main"
  tree := ⟨⟨"module", none, ⟨1, 0⟩⟩, .nil⟩
  problems := [⟨⟨2, 0⟩, "mismatched input '<EOF>' expecting ';'"⟩, ⟨⟨2, 1⟩, "missing ';'"⟩,
    ⟨⟨2, 5⟩, "extraneous input"⟩, ⟨⟨0, 0⟩, "token recognition error"⟩, ⟨⟨1, 3⟩, "no alternative"⟩,
    ⟨⟨2, 9⟩, "another one"⟩]

/-- Two of the six problems become issues, the one on line 2 first. -/
theorem problems_reach_report_complainingUnit : ∃ issues,
    (process complainingUnit ExportMapper.initial
      [dynamicCallCheck, parseProblemCheck ["missing"], versionCheck]).2 = some issues ∧
    issues.filter (·.rule = parseProblem.key)
      = [⟨parseProblem.key, 2, "extraneous input"⟩, ⟨parseProblem.key, 1, "no alternative"⟩] := by
  have hothers : ∀ j c,
      [dynamicCallCheck, parseProblemCheck ["missing"], versionCheck][j]? = some c → j ≠ 1 →
        c.Spares parseProblem.key := by
    intro j c hj hne
    match j with
    | 0 =>
        cases hj
        exact regular_dynamicCallCheck.spares (by decide)
    | 1 => exact absurd rfl hne
    | 2 =>
        cases hj
        exact regular_versionCheck.spares (by decide)
    | j + 3 => contradiction
  obtain ⟨-, hissues, -⟩ :=
    problems_reach_report complainingUnit ExportMapper.initial ["missing"] (i := 1) rfl hothers
  have hsome : ((process complainingUnit ExportMapper.initial
      [dynamicCallCheck, parseProblemCheck ["missing"], versionCheck]).2).isSome = true := by
    decide +kernel
  obtain ⟨issues, hprocess⟩ := Option.isSome_iff_exists.1 hsome
  refine ⟨issues, hprocess, (hissues issues hprocess).trans ?_⟩
  decide +kernel

end Rules

end QueryAudit
