import QueryAudit.Proofs.Walk.Calls

/-!
# QueryAudit.Proofs.Walk.Raised

What the checks raise while a unit is processed.  `SourceUnit.raised` lists the
events that come up, each with what the calls at it find; the issues of the unit are made
of these.

A regular check never crashes and does not look at the issues that are there, so
that it finds the same whatever checks are told with it.

* `exists_issue_createAll` — which issues a log has after some findings;
* `issues_eq_createAll_raised` — the issues of a unit are made of what is raised, in order;
* `process_of_regular` — what a unit with regular checks leaves;
* `getElem?_raised` — regular checks raise what each of them finds alone;
* `findings_onEnter` — what a check without a memory finds.
-/

namespace QueryAudit

/-! ## the log -/

/-- A finding sees to it that there is an issue for its rule and line. -/
theorem exists_issue_create (log : IssueLog) (f : Finding) (rule : String) (line : UInt32) :
    (∃ issue ∈ (log.create f).issues, issue.rule = rule ∧ issue.line = line)
      ↔ (∃ issue ∈ log.issues, issue.rule = rule ∧ issue.line = line)
        ∨ f.rule = rule ∧ max f.line 1 = line := by
  rw [IssueLog.create]
  cases hcovers : log.covers f.toIssue with
  | true =>
      refine ⟨Or.inl, ?_⟩
      rintro (hold | ⟨rfl, rfl⟩)
      · exact hold
      · simp only [IssueLog.covers, List.any_eq_true, Bool.and_eq_true, beq_iff_eq] at hcovers
        obtain ⟨issue, hissue, hline, hrule⟩ := hcovers
        exact ⟨issue, hissue, hrule, hline⟩
  | false => simp [Finding.toIssue, or_and_right, exists_or]

/-- **The log** has an issue for a rule and a line exactly when there was one before or a
finding asks for it. -/
theorem exists_issue_createAll (log : IssueLog) (fs : List Finding) (rule : String)
    (line : UInt32) :
    (∃ issue ∈ (log.createAll fs).issues, issue.rule = rule ∧ issue.line = line)
      ↔ (∃ issue ∈ log.issues, issue.rule = rule ∧ issue.line = line)
        ∨ ∃ f ∈ fs, f.rule = rule ∧ max f.line 1 = line := by
  induction fs generalizing log with
  | nil => simp [IssueLog.createAll]
  | cons f fs ih =>
      refine (ih (log.create f)).trans ?_
      rw [exists_issue_create, or_assoc]
      simp

/-! ## what is raised -/

section

variable {ρ : Type} [Resolver ρ] (u : SourceUnit) (r : ρ) (checks : List Check)

/-- What the checks raise while a unit is processed: each event that comes up with what the
calls at it find. -/
def SourceUnit.raised : List (Event × List Finding) :=
  (u.calls r checks).map fun told => (told.1, told.2.flatMap Call.findings)

/-- All that is raised is what the calls find. -/
theorem flatMap_raised :
    (u.raised r checks).flatMap (·.2) = (u.callLog r checks).flatMap Call.findings := by
  rw [SourceUnit.raised, List.flatMap_map, SourceUnit.callLog, List.flatMap_assoc]

variable {u r checks}

/-- When no check crashes, all events come up. -/
theorem map_fst_raised {issues : List Issue} (h : (process u r checks).2 = some issues) :
    (u.raised r checks).map (·.1) = u.events := by
  rw [SourceUnit.raised, List.map_map]
  exact (map_fst_callsFrom u.name r checks .empty u.events).2 (process_snd_eq_some h).1

/-- The issues of a unit are made of what is raised. -/
theorem issues_eq_createAll_raised {issues : List Issue}
    (h : (process u r checks).2 = some issues) :
    issues = (IssueLog.empty.createAll ((u.raised r checks).flatMap (·.2))).issues := by
  rw [flatMap_raised]
  exact (process_snd_eq_some h).2

end

/-! ## regular checks -/

namespace Check

/-- A check that never crashes, that does not look at the issues found so far, and
that raises breaches of one rule only. -/
structure Regular (key : String) (c : Check) : Prop where
  isSome_step : ∀ (context : Context) (event : Event) (memory : c.Memory),
    (c.step context event memory).isSome = true
  step_congr : ∀ (unit : String) (symbols : SymbolTable) (issues issues' : List Issue)
    (event : Event) (memory : c.Memory),
    c.step ⟨unit, symbols, issues⟩ event memory = c.step ⟨unit, symbols, issues'⟩ event memory
  rule_eq : ∀ (context : Context) (event : Event) (memory : c.Memory)
    (result : c.Memory × List Finding), c.step context event memory = some result →
    ∀ f ∈ result.2, f.rule = key

/-- The check after an event, and what it finds when it is told of the event alone. -/
def told (unit : String) (symbols : SymbolTable) (event : Event) (c : Check) :
    Check × List Finding :=
  match c.step ⟨unit, symbols, []⟩ event c.memory with
  | none => (c, [])
  | some (memory, findings) => ({ c with memory }, findings)

/-- What a check finds at each event when it is alone. -/
def findings (unit : String) (c : Check) : List (Event × SymbolTable) → List (List Finding)
  | [] => []
  | view :: views =>
    (c.told unit view.2 view.1).2 :: (c.told unit view.2 view.1).1.findings unit views

namespace Regular

variable {key : String} {c : Check} (h : c.Regular key)
include h

theorem step_eq (unit : String) (symbols : SymbolTable) (issues : List Issue) (event : Event) :
    ∃ memory, c.step ⟨unit, symbols, issues⟩ event c.memory
        = some (memory, (c.told unit symbols event).2) ∧
      (c.told unit symbols event).1 = { c with memory } := by
  obtain ⟨result, hresult⟩ :=
    Option.isSome_iff_exists.1 (h.isSome_step ⟨unit, symbols, []⟩ event c.memory)
  rw [h.step_congr unit symbols issues [] event c.memory, hresult, told, hresult]
  exact ⟨result.1, rfl, rfl⟩

/-- A check stays regular. -/
theorem told (unit : String) (symbols : SymbolTable) (event : Event) :
    (c.told unit symbols event).1.Regular key := by
  obtain ⟨memory, -, hafter⟩ := h.step_eq unit symbols [] event
  rw [hafter]
  exact ⟨h.isSome_step, h.step_congr, h.rule_eq⟩

theorem rule_of_mem_told {unit : String} {symbols : SymbolTable} {event : Event} {f : Finding}
    (hf : f ∈ (c.told unit symbols event).2) : f.rule = key := by
  obtain ⟨memory, hstep, -⟩ := h.step_eq unit symbols [] event
  exact h.rule_eq _ _ _ _ hstep f hf

/-- All that a regular check finds are breaches of its rule. -/
theorem rule_of_mem_findings {unit : String} {views : List (Event × SymbolTable)}
    {found : List Finding} (hfound : found ∈ c.findings unit views) {f : Finding} (hf : f ∈ found) :
    f.rule = key := by
  induction views generalizing c with
  | nil => simp [findings] at hfound
  | cons view views ih =>
      rcases List.mem_cons.1 hfound with rfl | hfound
      · exact h.rule_of_mem_told hf
      · exact ih (h.told unit view.2 view.1) hfound

end Regular

theorem length_findings (unit : String) (c : Check) (views : List (Event × SymbolTable)) :
    (c.findings unit views).length = views.length := by
  induction views generalizing c with
  | nil => rfl
  | cons view views ih => rw [findings, List.length_cons, List.length_cons, ih]

/-- A check without a memory finds at each node what it looks for there. -/
theorem findings_onEnter (unit : String) (find : Context → Node → List Finding)
    (views : List (Event × SymbolTable)) :
    (onEnter find).findings unit views = views.map fun view =>
      match view.1 with
      | .enter n => find ⟨unit, view.2, []⟩ n
      | _ => [] := by
  induction views with
  | nil => rfl
  | cons view views ih =>
      obtain ⟨event, symbols⟩ := view
      cases event <;> exact congrArg (_ :: ·) ih

end Check

/-- **One event** makes regular checks find what each of them finds alone. -/
theorem callsAt_regular {unit : String} {symbols : SymbolTable} {event : Event}
    {checks : List Check} (h : ∀ c ∈ checks, ∃ key, c.Regular key) (base : Nat) (log : IssueLog) :
    answered (callsAt unit symbols event base checks log) = true ∧
      (callsAt unit symbols event base checks log).filterMap Call.after
        = checks.map (fun c => (c.told unit symbols event).1) ∧
      (callsAt unit symbols event base checks log).flatMap Call.findings
        = checks.flatMap fun c => (c.told unit symbols event).2 := by
  induction checks generalizing base log with
  | nil => exact ⟨rfl, rfl, rfl⟩
  | cons check checks ih =>
      obtain ⟨key, hcheck⟩ := h check List.mem_cons_self
      obtain ⟨memory, hstep, hafter⟩ := hcheck.step_eq unit symbols log.issues event
      obtain ⟨hanswered, hlater, hfound⟩ := ih (fun c hc => h c (List.mem_cons_of_mem check hc))
        (base + 1) (log.createAll (check.told unit symbols event).2)
      have hanswer : Call.answer ⟨base, check, event, ⟨unit, symbols, log.issues⟩⟩
          = some (memory, (check.told unit symbols event).2) := hstep
      rw [callsAt, hstep]
      dsimp only
      refine ⟨?_, ?_, ?_⟩
      · rw [answered, List.all_cons, hanswer]
        exact hanswered
      · rw [List.filterMap_cons_some (Call.after_of_answer hanswer), hlater, List.map_cons, hafter]
      · rw [List.flatMap_cons, hfound, Call.findings_of_answer hanswer, List.flatMap_cons]

theorem deliver_regular {unit : String} {symbols : SymbolTable} {event : Event}
    {checks : List Check} (h : ∀ c ∈ checks, ∃ key, c.Regular key) (log : IssueLog) :
    deliver unit symbols event checks log
      = some (checks.map fun c => (c.told unit symbols event).1,
        log.createAll (checks.flatMap fun c => (c.told unit symbols event).2)) := by
  obtain ⟨hanswered, hlater, hfound⟩ := callsAt_regular h 0 log
  rw [deliver_eq unit symbols event 0, hlater, logAfter_eq_some_iff.2 ⟨hanswered, rfl⟩, hfound]
  rfl

theorem regular_map_told {checks : List Check} (h : ∀ c ∈ checks, ∃ key, c.Regular key)
    (unit : String) (symbols : SymbolTable) (event : Event) :
    ∀ c ∈ checks.map (fun c => (c.told unit symbols event).1), ∃ key, c.Regular key := by
  intro after hafter
  obtain ⟨c, hc, rfl⟩ := List.mem_map.1 hafter
  obtain ⟨key, hkey⟩ := h c hc
  exact ⟨key, hkey.told unit symbols event⟩

section

variable {ρ : Type} [Resolver ρ]

/-- Regular checks do not crash. -/
theorem answered_callsFrom {unit : String} {r : ρ} {checks : List Check}
    (h : ∀ c ∈ checks, ∃ key, c.Regular key) (log : IssueLog) (events : List Event) :
    answered ((callsFrom unit r checks log events).flatMap Prod.snd) = true := by
  induction events generalizing r checks log with
  | nil => rfl
  | cons event events ih =>
      rw [callsFrom, deliver_regular h, List.flatMap_cons, answered_append,
        (callsAt_regular h 0 log).1]
      exact ih (regular_map_told h _ _ _) _

/-- **Regular checks** find at each event what each of them finds alone, in the order of
the checks. -/
theorem getElem?_callsFrom {unit : String} {r : ρ} {checks : List Check}
    (h : ∀ c ∈ checks, ∃ key, c.Regular key) (log : IssueLog) (events : List Event) (k : Nat) :
    (callsFrom unit r checks log events)[k]?.map
        (fun told => (told.1, told.2.flatMap Call.findings))
      = events[k]?.map fun event =>
        (event, checks.flatMap fun c => ((c.findings unit (views r events))[k]?).getD []) := by
  induction events generalizing r checks log k with
  | nil => rfl
  | cons event events ih =>
      rw [callsFrom, views, deliver_regular h]
      cases k with
      | zero => simp [Check.findings, (callsAt_regular h 0 log).2.2]
      | succ k =>
          rw [List.getElem?_cons_succ, List.getElem?_cons_succ]
          refine (ih (regular_map_told h _ _ _) _ k).trans ?_
          simp [List.flatMap_map, Check.findings]

variable {u : SourceUnit} {r : ρ} {checks : List Check} (h : ∀ c ∈ checks, ∃ key, c.Regular key)
include h

/-- **A unit with regular checks** leaves the resolver as if there were none, and its issues
are made of what is raised. -/
theorem process_of_regular :
    process u r checks
      = (u.events.foldl (fun r event => Resolver.on event r) r,
        some (IssueLog.empty.createAll ((u.raised r checks).flatMap (·.2))).issues) := by
  have hanswered : answered (u.callLog r checks) = true := answered_callsFrom h .empty u.events
  have hevents : (u.calls r checks).map Prod.fst = u.events :=
    (map_fst_callsFrom u.name r checks .empty u.events).2 hanswered
  rw [process_eq, hevents, logAfter_eq_some_iff.2 ⟨hanswered, rfl⟩, flatMap_raised]
  rfl

theorem getElem?_raised (k : Nat) :
    (u.raised r checks)[k]? = u.events[k]?.map fun event =>
      (event, checks.flatMap fun c => ((c.findings u.name (views r u.events))[k]?).getD []) := by
  rw [SourceUnit.raised, List.getElem?_map]
  exact getElem?_callsFrom h .empty u.events k

/-- A finding is raised at an event when one of the checks finds it there. -/
theorem exists_raised_iff (k : Nat) (f : Finding) :
    (∃ event findings, (u.raised r checks)[k]? = some (event, findings) ∧ f ∈ findings) ↔
      ∃ c ∈ checks, ∃ found,
        (c.findings u.name (views r u.events))[k]? = some found ∧ f ∈ found := by
  rw [getElem?_raised h]
  constructor
  · rintro ⟨event, findings, hat, hf⟩
    obtain ⟨_, -, heq⟩ := Option.map_eq_some_iff.1 hat
    cases heq
    obtain ⟨c, hc, hfound⟩ := List.mem_flatMap.1 hf
    cases hfindings : (c.findings u.name (views r u.events))[k]? with
    | none => simp [hfindings] at hfound
    | some found =>
        rw [hfindings] at hfound
        exact ⟨c, hc, found, hfindings, hfound⟩
  · rintro ⟨c, hc, found, hfindings, hf⟩
    have hk : k < u.events.length := by
      obtain ⟨hk, -⟩ := List.getElem?_eq_some_iff.1 hfindings
      rw [Check.length_findings, length_views] at hk
      exact hk
    rw [List.getElem?_eq_getElem hk, Option.map_some]
    refine ⟨_, _, rfl, List.mem_flatMap.2 ⟨c, hc, ?_⟩⟩
    rw [hfindings]
    exact hf

end

end QueryAudit
