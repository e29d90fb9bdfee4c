import Mathlib.Algebra.GroupWithZero.Nat
import QueryAudit.Proofs.Analyzer.Raised
import QueryAudit.Proofs.Rules.Message
import QueryAudit.Proofs.Walk.Protocol
import QueryAudit.Report

/-!
# QueryAudit.Proofs.Report.Lines

The written form for people, line by line.  It ends every issue with a line feed and
writes unit names, keys and messages as they are, so that an issue is on one line exactly
when these have no line feed themselves.

* `linesOf_human`, `lineFeeds_human` — the lines of the text for any reports;
* `unbroken_process` — what the issues of a walk are made of;
* `human_lines` — when there is one line for each issue, and which units see to that.
-/

namespace QueryAudit

/-! ## the lines of a text -/

/-- The lines of a text: what stands before, between and behind its line feeds. -/
def linesOf (s : String) : List String := (s.toList.splitOn '\n').map String.ofList

/-- The number of line feeds in a text. -/
def lineFeeds (s : String) : Nat := s.toList.count '\n'

@[simp] theorem lineFeeds_append (s t : String) :
    lineFeeds (s ++ t) = lineFeeds s + lineFeeds t := by
  simp [lineFeeds]

theorem lineFeeds_eq_zero_iff {s : String} : lineFeeds s = 0 ↔ Unbroken s := List.count_eq_zero

theorem length_linesOf (s : String) : (linesOf s).length = lineFeeds s + 1 := by
  rw [linesOf, List.length_map, lineFeeds]
  induction s.toList with
  | nil => rfl
  | cons c cs ih =>
      rw [List.splitOn_cons_eq_if_modifyHead, List.count_cons]
      split <;> simp_all

theorem linesOf_append_lineFeed (s t : String) :
    linesOf (s ++ "\n" ++ t) = linesOf s ++ linesOf t := by
  simp [linesOf, List.splitOn_append_cons_self]

theorem linesOf_of_unbroken {s : String} (h : Unbroken s) : linesOf s = [s] := by
  simp [linesOf, List.splitOn_eq_singleton h]

/-- Texts that are each ended by a line feed give their lines, and an empty rest. -/
theorem linesOf_join (texts : List String) :
    linesOf (String.join (texts.map (· ++ "\n"))) = texts.flatMap linesOf ++ [""] := by
  induction texts with
  | nil => rfl
  | cons s texts ih =>
      rw [List.map_cons, String.join_cons, linesOf_append_lineFeed, ih, List.flatMap_cons,
        List.append_assoc]

theorem lineFeeds_join (texts : List String) :
    lineFeeds (String.join (texts.map (· ++ "\n"))) = texts.length + (texts.map lineFeeds).sum := by
  induction texts with
  | nil => rfl
  | cons s texts ih =>
      have hfeed : lineFeeds "\n" = 1 := rfl
      rw [List.map_cons, String.join_cons, lineFeeds_append, lineFeeds_append, ih, hfeed,
        List.map_cons, List.sum_cons, List.length_cons]
      omega

/-! ## issues with their units -/

/-- An issue with the name of the unit it is in. -/
structure Notice where
  unit : String
  issue : Issue

namespace Notice

/-- The texts of a notice are unbroken. -/
def IsUnbroken (x : Notice) : Prop := Unbroken x.unit ∧ x.issue.IsUnbroken

/-- What is written for a notice: `unit:line: Priority [Rule] message`. -/
def line (registry : Registry) (x : Notice) : String :=
  x.unit ++ ":" ++ writeWord x.issue.line ++ ": " ++ (Report.priority registry x.issue).name ++ " ["
    ++ x.issue.rule ++ "] " ++ x.issue.message

/-- The line feeds in the texts of a notice. -/
def feeds (x : Notice) : Nat :=
  lineFeeds x.unit + lineFeeds x.issue.rule + lineFeeds x.issue.message

theorem feeds_eq_zero_iff {x : Notice} : x.feeds = 0 ↔ x.IsUnbroken := by
  simp only [feeds, Nat.add_eq_zero_iff, lineFeeds_eq_zero_iff]
  exact ⟨fun h => ⟨h.1.1, h.1.2, h.2⟩, fun h => ⟨⟨h.1, h.2.rule⟩, h.2.message⟩⟩

/-- A numeral has no line feed. -/
theorem lineFeeds_writeWord (w : UInt32) : lineFeeds (writeWord w) = 0 :=
  lineFeeds_eq_zero_iff.2 fun h => absurd (isDigit_of_mem_writeWord h) (by decide)

/-- The line feeds of a line come from the texts of the notice. -/
theorem lineFeeds_line (registry : Registry) (x : Notice) :
    lineFeeds (x.line registry) = x.feeds := by
  have hpriority : lineFeeds (Report.priority registry x.issue).name = 0 := by
    cases Report.priority registry x.issue <;> rfl
  have hcolon : lineFeeds ":" = 0 := rfl
  have hspace : lineFeeds ": " = 0 := rfl
  have hopen : lineFeeds " [" = 0 := rfl
  have hclose : lineFeeds "] " = 0 := rfl
  simp only [line, feeds, lineFeeds_append, lineFeeds_writeWord, hpriority, hcolon, hspace, hopen,
    hclose, Nat.add_zero]

end Notice

namespace Report

/-- The issues of reports, in the order of the reports and of their issues. -/
def notices (reports : List UnitReport) : List Notice :=
  reports.flatMap fun r => r.issues.map (Notice.mk r.unit)

theorem human_eq (registry : Registry) (reports : List UnitReport) :
    human registry reports
      = String.join (((notices reports).map (Notice.line registry)).map (· ++ "\n")) := by
  rw [human, humanLines, notices, List.map_flatMap, List.map_flatMap]
  simp only [List.map_map]
  rfl

/-- **The text** consists of the lines of all issues and an empty rest. -/
theorem linesOf_human (registry : Registry) (reports : List UnitReport) :
    linesOf (human registry reports)
      = ((notices reports).map (Notice.line registry)).flatMap linesOf ++ [""] := by
  rw [human_eq, linesOf_join]

/-- **The line feeds** are one for each issue and those in its texts. -/
theorem lineFeeds_human (registry : Registry) (reports : List UnitReport) :
    lineFeeds (human registry reports)
      = (notices reports).length + ((notices reports).map Notice.feeds).sum := by
  rw [human_eq, lineFeeds_join, List.length_map, List.map_map]
  exact congrArg (_ + ·) (congrArg List.sum
    (List.map_congr_left fun x _ => x.lineFeeds_line registry))

end Report

/-! ## units without line feeds -/

theorem IssueLog.unbroken_createAll {log : IssueLog} (hlog : ∀ i ∈ log.issues, i.IsUnbroken)
    {fs : List Finding} (hfs : ∀ f ∈ fs, f.toIssue.IsUnbroken) :
    ∀ i ∈ (log.createAll fs).issues, i.IsUnbroken := by
  refine List.foldlRecOn (motive := fun log => ∀ i ∈ log.issues, i.IsUnbroken) fs create hlog
    fun log hlog f hf i hi => ?_
  rw [issues_create] at hi
  rcases List.mem_append.1 hi with hi | hi
  · exact hlog i hi
  · split at hi
    · exact List.mem_singleton.1 hi ▸ hfs f hf
    · exact absurd hi List.not_mem_nil

/-- The walk over a tree quotes the texts of its nodes. -/
theorem Forest.unbroken_events {f : Forest} (h : ∀ n ∈ f.preorder, Unbroken n.text) :
    ∀ event ∈ f.events, event.IsUnbroken := by
  induction f with
  | nil => exact fun event hevent => absurd hevent List.not_mem_nil
  | leaf l rest ih => exact ih h
  | node label children rest ihc ih =>
      obtain ⟨hnode, hbelow⟩ := List.forall_mem_cons.1 h
      obtain ⟨hchildren, hrest⟩ := List.forall_mem_append.1 hbelow
      refine List.forall_mem_cons.2 ⟨hnode, List.forall_mem_append.2 ⟨ihc hchildren, ?_⟩⟩
      exact List.forall_mem_cons.2 ⟨trivial, ih hrest⟩

/-- The texts of a unit are unbroken: its name, what stands in its tree, and the parser's
messages. -/
structure SourceUnit.IsUnbroken (u : SourceUnit) : Prop where
  name : Unbroken u.name
  tree : Unbroken u.tree.text
  problems : ∀ p ∈ u.problems, Unbroken p.message

theorem SourceUnit.IsUnbroken.events {u : SourceUnit} (h : u.IsUnbroken) :
    ∀ event ∈ u.events, event.IsUnbroken := by
  have hnodes : ∀ n ∈ u.tree.toForest.preorder, Unbroken n.text := by
    intro n hn
    rw [Node.toForest, Forest.preorder, Forest.preorder, List.append_nil] at hn
    exact h.tree.of_isInfix (Node.text_isInfix_of_mem_preorder hn)
  have htree : ∀ event ∈ u.tree.events, event.IsUnbroken := by
    rw [← Node.events_toForest]
    exact Forest.unbroken_events hnodes
  rw [u.events_eq, List.forall_mem_cons, List.forall_mem_append]
  refine ⟨trivial, htree, ?_⟩
  intro event hevent
  simp only [List.mem_cons, List.not_mem_nil, or_false] at hevent
  rcases hevent with rfl | rfl
  · trivial
  · exact fun p hp => h.problems p (List.mem_filter.1 hp).1

/-- **A walk** over unbroken texts leaves unbroken issues. -/
theorem unbroken_process {ρ : Type} [Resolver ρ] {u : SourceUnit} (hu : u.IsUnbroken) {r : ρ}
    {checks : List Check} (hchecks : ∀ c ∈ checks, c.IsUnbroken) {issues : List Issue}
    (h : (process u r checks).2 = some issues) : ∀ i ∈ issues, i.IsUnbroken := by
  rw [(process_snd_eq_some h).2]
  refine IssueLog.unbroken_createAll (fun i hi => absurd hi List.not_mem_nil) fun f hf => ?_
  obtain ⟨call, hcall, hf⟩ := List.mem_flatMap.1 hf
  obtain ⟨hevent, c, hc, context, memory, result, hstep, hfound⟩ :=
    exists_step_of_mem_callLog u r hcall hf
  exact hchecks c (List.mem_of_getElem? hc) context call.event memory result
    (hu.events call.event hevent) hstep f hfound

/-! ## reports of units -/

namespace Analyzer

variable {a : Analyzer} (hchecks : ∀ c ∈ a.checks, c.IsUnbroken)
include hchecks

theorem unbroken_analyzeUnit {u : SourceUnit} (hu : u.IsUnbroken) (r : LocalResolver) :
    ∀ i ∈ (a.analyzeUnit r u).2.issues, i.IsUnbroken := by
  unfold analyzeUnit
  split
  · exact fun i hi => absurd hi List.not_mem_nil
  · cases hrun : process u r a.checks with
    | mk after issues =>
        cases issues with
        | none => exact fun i hi => absurd hi List.not_mem_nil
        | some issues => exact unbroken_process hu hchecks (congrArg Prod.snd hrun)

/-- **An analysis** of unbroken units gives unbroken notices. -/
theorem unbroken_analyze {us : List SourceUnit} (hus : ∀ u ∈ us, u.IsUnbroken) :
    ∀ x ∈ Report.notices (a.analyze us), x.IsUnbroken := by
  intro x hx
  obtain ⟨report, hreport, hx⟩ := List.mem_flatMap.1 hx
  obtain ⟨issue, hissue, rfl⟩ := List.mem_map.1 hx
  obtain ⟨i, hi⟩ := List.getElem?_of_mem hreport
  rw [getElem?_analyze] at hi
  obtain ⟨u, hu, rfl⟩ := Option.map_eq_some_iff.1 hi
  have hunit := hus u (List.mem_of_getElem? hu)
  refine ⟨?_, unbroken_analyzeUnit hchecks hunit _ issue hissue⟩
  rw [unit_analyzeUnit]
  exact hunit.name

end Analyzer

namespace Report

/-- **Lines for people**, for any reports and any catalogue of rules.  The text has a line feed
for each issue and those in the unit names, keys and messages of the issues; so it has as
many as there are issues, and its lines are the lines of the issues in order, exactly
when these texts have none.  The standard rules see to that for all units whose names,
trees and problems have no line feeds. -/
theorem human_lines (registry : Registry) (reports : List UnitReport) :
    lineFeeds (human registry reports)
        = (notices reports).length + ((notices reports).map Notice.feeds).sum ∧
      (lineFeeds (human registry reports) = (notices reports).length
        ↔ ∀ x ∈ notices reports, x.IsUnbroken) ∧
      (linesOf (human registry reports) = (notices reports).map (Notice.line registry) ++ [""]
        ↔ ∀ x ∈ notices reports, x.IsUnbroken) ∧
      ∀ (config : Config) (a : Analyzer) (us : List SourceUnit),
        Analyzer.ofRegistry config .standard = .ok a → (∀ u ∈ us, u.IsUnbroken) →
          reports = a.analyze us → ∀ x ∈ notices reports, x.IsUnbroken := by
  have hfeeds := lineFeeds_human registry reports
  have hcount : lineFeeds (human registry reports) = (notices reports).length
      ↔ ∀ x ∈ notices reports, x.IsUnbroken := by
    rw [hfeeds, Nat.add_eq_left, List.sum_eq_zero_iff_forall_eq_nat]
    simp [Notice.feeds_eq_zero_iff]
  refine ⟨hfeeds, hcount, ⟨fun hlines => hcount.1 ?_, fun hunbroken => ?_⟩, ?_⟩
  · have hlength := congrArg List.length hlines
    rw [length_linesOf, List.length_append, List.length_map] at hlength
    exact Nat.succ.inj hlength
  · have hsingle : ∀ line ∈ (notices reports).map (Notice.line registry),
        linesOf line = [line] := by
      intro line hline
      obtain ⟨x, hx, rfl⟩ := List.mem_map.1 hline
      have hline : lineFeeds (x.line registry) = 0 := by
        rw [x.lineFeeds_line, Notice.feeds_eq_zero_iff.2 (hunbroken x hx)]
      exact linesOf_of_unbroken (lineFeeds_eq_zero_iff.1 hline)
    rw [linesOf_human, List.flatMap_congr hsingle, List.flatMap_singleton']
  · rintro config a us ha hus rfl
    refine Analyzer.unbroken_analyze (fun c hc => ?_) hus
    obtain ⟨rule, hrule, -, rfl⟩ := (Analyzer.mem_checks_iff ha).1 hc
    exact Registry.isUnbroken_of_mem_standardRules hrule config

/-- A unit without nodes of interest, and one message of the parser. -/
def troubledUnit (message : String) : SourceUnit where
  name := "main"
  tree := ⟨⟨"module", none, ⟨1, 0⟩⟩, .nil⟩
  problems := [⟨⟨1, 0⟩, message⟩]

/-- A message of two lines takes two lines, and one of one line takes one. -/
theorem human_lines_troubledUnit : ∃ a, Analyzer.ofRegistry .standard .standard = .ok a ∧
    (notices (a.analyze [troubledUnit "first\nsecond"])).length = 1 ∧
    lineFeeds (human .standard (a.analyze [troubledUnit "first\nsecond"])) ≠ 1 ∧
    linesOf (human .standard (a.analyze [troubledUnit "first"]))
      = (notices (a.analyze [troubledUnit "first"])).map (Notice.line .standard) ++ [""] := by
  obtain ⟨a, ha⟩ : ∃ a, Analyzer.ofRegistry .standard .standard = .ok a := ⟨_, rfl⟩
  have hbroken : notices (a.analyze [troubledUnit "first\nsecond"])
      = [⟨"main", ⟨"ParseError", 1, "first\nsecond"⟩⟩] := by
    have hdepth : Analyzer.isTooDeep (troubledUnit "first\nsecond") = false :=
      Analyzer.isTooDeep_eq_false (by decide)
    cases ha
    simp only [Analyzer.analyze, Analyzer.analyzeFrom, Analyzer.analyzeUnit, hdepth]
    rfl
  have hlength : (notices (a.analyze [troubledUnit "first\nsecond"])).length = 1 :=
    congrArg List.length hbroken
  have hplain : ∀ u ∈ [troubledUnit "first"], u.IsUnbroken := by
    intro u hu
    rw [List.mem_singleton.1 hu]
    exact ⟨by decide, by decide, by decide⟩
  refine ⟨a, ha, hlength, fun hone => ?_, ?_⟩
  · have hunbroken := (human_lines .standard _).2.1.1 (hone.trans hlength.symm)
    rw [hbroken, List.forall_mem_singleton] at hunbroken
    exact absurd hunbroken.2.message (by decide)
  · obtain ⟨-, -, hlines, hunbroken⟩ := human_lines .standard (a.analyze [troubledUnit "first"])
    exact hlines.2 (hunbroken .standard a [troubledUnit "first"] ha hplain rfl)

end Report

end QueryAudit
