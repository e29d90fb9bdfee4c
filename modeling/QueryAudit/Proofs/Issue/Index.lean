import Mathlib.Data.Finset.Insert
import QueryAudit.Proofs.Walk.FirstFinding

/-!
# QueryAudit.Proofs.Issue.Index

Two ways to ask a log about a rule and a line: whether it would keep another finding, and
the search for the issue.  An `IndexedLog` decides the first by a set of places that it
keeps apart from its list, and answers as an `IssueLog` does.

* `IndexedLog.recordAll_eq` — the set gives the answers of the list;
* `IssueLog.isSome_find?_iff` — which issues are found;
* `IssueLog.find?_create_of_accepts`, `IssueLog.find?_createAll` — a finding that is kept is
  found, now and later;
* `found_iff_refused` — on which lines the two ways agree.
-/

namespace QueryAudit

/-! ## a set of places -/

/-- Issues in the order in which they were found, with the places that have one. -/
structure IndexedLog where
  issues : List Issue
  places : Finset (String × UInt32)

namespace IndexedLog

/-- A log without issues. -/
def empty : IndexedLog := ⟨[], ∅⟩

/-- Keep a finding as an issue if its place is new.  The second part says whether it is kept. -/
def record (log : IndexedLog) (f : Finding) : IndexedLog × Bool :=
  if f.toIssue.place ∈ log.places then (log, false)
  else (⟨log.issues ++ [f.toIssue], insert f.toIssue.place log.places⟩, true)

/-- Record findings one after the other. -/
def recordAll (log : IndexedLog) (fs : List Finding) : IndexedLog :=
  fs.foldl (fun log f => (log.record f).1) log

/-- The issues without the set. -/
def toLog (log : IndexedLog) : IssueLog := ⟨log.issues⟩

/-- The set has the places of the issues and no others. -/
def Indexes (log : IndexedLog) : Prop := ∀ p, p ∈ log.places ↔ ∃ i ∈ log.issues, i.place = p

theorem Indexes.mem_places_iff {log : IndexedLog} (h : log.Indexes) (i : Issue) :
    i.place ∈ log.places ↔ log.toLog.covers i = true := by
  rw [covers_eq_true_iff]
  exact h i.place

/-- **One finding** keeps the set in step with the list, and is answered as without a set. -/
theorem Indexes.record {log : IndexedLog} (h : log.Indexes) (f : Finding) :
    (log.record f).1.Indexes ∧ (log.record f).1.toLog = log.toLog.create f ∧
      (log.record f).2 = log.toLog.accepts f := by
  rw [IndexedLog.record, IssueLog.create, IssueLog.accepts]
  by_cases hplace : f.toIssue.place ∈ log.places
  · rw [if_pos hplace, (h.mem_places_iff _).1 hplace]
    exact ⟨h, rfl, rfl⟩
  · rw [if_neg hplace, Bool.eq_false_iff.2 (mt (h.mem_places_iff _).2 hplace)]
    refine ⟨fun p => ?_, rfl, rfl⟩
    simp [h p, or_and_right, exists_or, eq_comm, or_comm]

/-- Any findings keep the set in step with the list. -/
theorem Indexes.recordAll {log : IndexedLog} (h : log.Indexes) (fs : List Finding) :
    (log.recordAll fs).Indexes ∧ (log.recordAll fs).toLog = log.toLog.createAll fs := by
  induction fs generalizing log with
  | nil => exact ⟨h, rfl⟩
  | cons f fs ih =>
      obtain ⟨hindexes, hlog, -⟩ := h.record f
      obtain ⟨hafter, hrest⟩ := ih hindexes
      exact ⟨hafter, hrest.trans (congrArg (IssueLog.createAll · fs) hlog)⟩

/-- **A history of findings** leaves the same issues with a set as without, and the next
finding gets the same answer. -/
theorem recordAll_eq (fs : List Finding) (f : Finding) :
    (empty.recordAll fs).toLog = IssueLog.empty.createAll fs ∧
      ((empty.recordAll fs).record f).2 = (IssueLog.empty.createAll fs).accepts f := by
  have hempty : empty.Indexes := fun p => by simp [empty]
  obtain ⟨hindexes, hlog⟩ : (empty.recordAll fs).Indexes ∧
      (empty.recordAll fs).toLog = IssueLog.empty.createAll fs := hempty.recordAll fs
  exact ⟨hlog, hlog ▸ (hindexes.record f).2.2⟩

end IndexedLog

/-! ## the search for an issue -/

namespace IssueLog

/-- **An issue is found** if there is one with the rule and the line. -/
theorem isSome_find?_iff (log : IssueLog) (rule : String) (line : UInt32) :
    (log.find? rule line).isSome = true ↔ ∃ i ∈ log.issues, i.place = (rule, line) := by
  simp [find?, Issue.place, and_comm]

/-- A log keeps a finding exactly if it does not find an issue at its place. -/
theorem accepts_eq_false_iff (log : IssueLog) (f : Finding) :
    log.accepts f = false ↔ (log.find? f.rule (max f.line 1)).isSome = true := by
  rw [isSome_find?_iff, accepts, Bool.not_eq_false', covers_eq_true_iff]
  rfl

/-- **A finding that is kept** is found at its place. -/
theorem find?_create_of_accepts {log : IssueLog} {f : Finding} (h : log.accepts f = true) :
    (log.create f).find? f.rule (max f.line 1) = some f.toIssue := by
  have hnone : log.find? f.rule (max f.line 1) = none := by
    rw [← Option.not_isSome_iff_eq_none, ← accepts_eq_false_iff, h]
    exact Bool.noConfusion
  rw [find?, issues_create, h, List.find?_append]
  rw [find?] at hnone
  rw [hnone]
  simp [Finding.toIssue]

/-- What is found stays found. -/
theorem find?_createAll {log : IssueLog} {rule : String} {line : UInt32} {i : Issue}
    (h : log.find? rule line = some i) (fs : List Finding) :
    (log.createAll fs).find? rule line = some i := by
  rw [find?] at h ⊢
  rw [issues_createAll, List.find?_append, h, Option.some_or]

/-- Nothing is found on line 0. -/
theorem find?_zero_createAll (fs : List Finding) (rule : String) :
    (empty.createAll fs).find? rule 0 = none := by
  rw [← Option.not_isSome_iff_eq_none, isSome_find?_iff]
  rintro ⟨i, hi, hplace⟩
  obtain ⟨hrule, hline⟩ := Prod.ext_iff.1 hplace
  rcases (exists_issue_createAll empty fs rule 0).1 ⟨i, hi, hrule, hline⟩ with
    ⟨j, hj, -⟩ | ⟨f, -, -, hf⟩
  · exact absurd hj List.not_mem_nil
  · have hpos : 1 ≤ max f.line 1 := f.line_toIssue_pos
    rw [hf] at hpos
    exact absurd hpos (by decide)

end IssueLog

/-! ## both ways -/

/-- **Recording and finding.**  After any findings a log with a set of places has the issues
of the log without one and gives its answer to the next finding.  That log refuses a finding
exactly if it finds an issue for the rule on the line to which the finding is moved.  So the
line of the finding itself serves as well, unless it is line 0, on which nothing is ever
found although findings on it are kept, on line 1.  A finding that is kept is found where it
is kept, whatever comes later. -/
theorem found_iff_refused (fs : List Finding) (f : Finding) :
    (IndexedLog.empty.recordAll fs).toLog = IssueLog.empty.createAll fs ∧
    ((IndexedLog.empty.recordAll fs).record f).2 = (IssueLog.empty.createAll fs).accepts f ∧
    ((IssueLog.empty.createAll fs).accepts f = false ↔
      ((IssueLog.empty.createAll fs).find? f.rule (max f.line 1)).isSome = true) ∧
    (((IssueLog.empty.createAll fs).find? f.rule f.line).isSome = true ↔
      (IssueLog.empty.createAll fs).accepts f = false ∧ f.line ≠ 0) ∧
    ((IssueLog.empty.createAll fs).accepts f = true → ∀ later,
      (IssueLog.empty.createAll (fs ++ f :: later)).find? f.rule (max f.line 1)
          = some ⟨f.rule, max f.line 1, f.message.getD f.rule⟩ ∧
        (IssueLog.empty.createAll (fs ++ f :: later)).find? f.rule f.line
          = if f.line = 0 then none else some ⟨f.rule, max f.line 1, f.message.getD f.rule⟩) := by
  obtain ⟨hlog, hanswer⟩ := IndexedLog.recordAll_eq fs f
  have hrefused := (IssueLog.empty.createAll fs).accepts_eq_false_iff f
  refine ⟨hlog, hanswer, hrefused, ?_, fun h later => ?_⟩
  · rw [hrefused]
    by_cases hzero : f.line = 0
    · simp [hzero, IssueLog.find?_zero_createAll]
    · simp [hzero, max_one_eq_self]
  · have hfound : (IssueLog.empty.createAll (fs ++ f :: later)).find? f.rule (max f.line 1)
        = some f.toIssue := by
      rw [IssueLog.createAll_append]
      exact IssueLog.find?_createAll (IssueLog.find?_create_of_accepts h) later
    refine ⟨hfound, ?_⟩
    split
    · next hzero => rw [hzero, IssueLog.find?_zero_createAll]
    · next hpos =>
        rw [max_one_eq_self hpos] at hfound
        exact hfound

/-- A finding on line 0 is kept, on line 1, and not found on line 0; a second one is refused. -/
theorem found_iff_refused_lineZero :
    (IssueLog.empty.createAll [⟨"P", 0, some "x"⟩]).issues = [⟨"P", 1, "x"⟩] ∧
    (IssueLog.empty.createAll [⟨"P", 0, some "x"⟩]).accepts ⟨"P", 0, some "y"⟩ = false ∧
    (IssueLog.empty.createAll [⟨"P", 0, some "x"⟩]).find? "P" 0 = none ∧
    (IssueLog.empty.createAll [⟨"P", 0, some "x"⟩]).find? "P" 1 = some ⟨"P", 1, "x"⟩ := by
  obtain ⟨-, -, -, -, hkept⟩ := found_iff_refused [] ⟨"P", 0, some "x"⟩
  obtain ⟨hfound, hzero⟩ := hkept (by decide) []
  exact ⟨by decide, by decide, hzero, hfound⟩

end QueryAudit
