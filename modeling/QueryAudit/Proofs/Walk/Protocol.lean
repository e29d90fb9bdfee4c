import QueryAudit.Proofs.Tree.Search
import QueryAudit.Proofs.Walk.Calls
import QueryAudit.Proofs.Walk.Visit

/-!
# QueryAudit.Proofs.Walk.Protocol

The protocol that the walk over a unit keeps with the checks.  `Continues` says of calls on
one check that each finds the memory that the one before it has left; it holds of the calls
of every check of the list, whatever the others do.

* `filter_callsAt` — one check at one event is called at most once;
* `continues_callsOf` — each check is called with the memory that its last call has left;
* `exists_step_of_mem_callLog` — where a finding comes from;
* `walk_protocol` — the events of a unit and the calls at them.
-/

namespace QueryAudit

/-- Calls made one after the other on one check: each finds the memory that the one before
it has left, and there is none after a crash. -/
inductive Continues : Check → List Call → Prop
  | nil {check : Check} : Continues check []
  | crash {call : Call} (h : call.after = none) : Continues call.check [call]
  | step {call : Call} {calls : List Call} {after : Check} (h : call.after = some after)
      (hrest : Continues after calls) : Continues call.check (call :: calls)

/-- Calls that go on from one another are calls of one check. -/
theorem Continues.exists_memory {c : Check} {calls : List Call} (h : Continues c calls)
    {call : Call} (hcall : call ∈ calls) : ∃ m, call.check = { c with memory := m } := by
  induction h with
  | nil => exact absurd hcall List.not_mem_nil
  | crash h =>
      rw [List.mem_singleton] at hcall
      exact hcall ▸ ⟨_, rfl⟩
  | @step first calls after hafter hrest ih =>
      rcases List.mem_cons.1 hcall with rfl | hcall
      · exact ⟨_, rfl⟩
      · obtain ⟨result, -, rfl⟩ := Option.map_eq_some_iff.1 hafter
        exact ih hcall

/-- A finding of a call is one that the check answers with, for some memory of it. -/
theorem Call.exists_step_of_mem_findings {call : Call} {c : Check} {m : c.Memory}
    (hcheck : call.check = { c with memory := m }) {f : Finding} (hf : f ∈ call.findings) :
    ∃ result, c.step call.context call.event m = some result ∧ f ∈ result.2 := by
  obtain ⟨number, check, event, context⟩ := call
  dsimp only at hcheck
  subst hcheck
  cases hanswer : Call.answer ⟨number, { c with memory := m }, event, context⟩ with
  | none => simp [Call.findings, hanswer] at hf
  | some result =>
      rw [Call.findings_of_answer hanswer] at hf
      exact ⟨result, hanswer, hf⟩

/-! ## one event -/

section

variable (unit : String) (symbols : SymbolTable) (event : Event)

/-- The checks before the first one are not called. -/
theorem filter_callsAt_of_lt {n base : Nat} (hn : n < base) (checks : List Check)
    (log : IssueLog) :
    (callsAt unit symbols event base checks log).filter (·.number = n) = [] := by
  refine List.filter_eq_nil_iff.2 fun call hcall => ?_
  have hmem := (told_callsAt unit symbols event base checks log).1.subset
    (List.mem_map_of_mem hcall)
  obtain ⟨k, hk, heq⟩ := List.mem_map.1 hmem
  have hnumber : k = call.number := congrArg Prod.fst heq
  have hbase := (List.mem_range'_1.1 hk).1
  simp only [decide_eq_true_eq]
  omega

/-- **One check at one event** is called once, or not at all because a check before it
crashes; when the event gets through to all checks its call is answered. -/
theorem filter_callsAt {checks : List Check} {i : Nat} {c : Check} (hc : checks[i]? = some c)
    (base : Nat) (log : IssueLog) :
    ((callsAt unit symbols event base checks log).filter (·.number = base + i) = [] ∧
        deliver unit symbols event checks log = none) ∨
      ∃ call, (callsAt unit symbols event base checks log).filter (·.number = base + i) = [call] ∧
        call.check = c ∧ ∀ afterwards log',
          deliver unit symbols event checks log = some (afterwards, log') →
          ∃ after, call.after = some after ∧ afterwards[i]? = some after := by
  induction checks generalizing base i log with
  | nil => simp at hc
  | cons check checks ih =>
      rw [callsAt]
      cases i with
      | zero =>
          obtain rfl : check = c := by simpa using hc
          refine Or.inr ⟨⟨base, check, event, ⟨unit, symbols, log.issues⟩⟩, ?_, rfl,
            fun afterwards log' h => ?_⟩
          · rw [List.filter_cons_of_pos (by simp)]
            cases check.step ⟨unit, symbols, log.issues⟩ event check.memory with
            | none => rfl
            | some result =>
                exact congrArg (_ :: ·)
                  (filter_callsAt_of_lt unit symbols event (Nat.lt_succ_self base) _ _)
          · obtain ⟨memory, findings, later, hstep, -, rfl⟩ := deliver_cons_eq_some h
            exact ⟨_, Call.after_of_answer hstep, rfl⟩
      | succ i =>
          rw [List.getElem?_cons_succ] at hc
          rw [List.filter_cons_of_neg (by simp)]
          cases hstep : check.step ⟨unit, symbols, log.issues⟩ event check.memory with
          | none => exact Or.inl ⟨rfl, by rw [deliver, hstep]⟩
          | some result =>
              dsimp only
              rw [show base + (i + 1) = base + 1 + i by omega]
              rcases ih hc (base + 1) (log.createAll result.2) with
                ⟨hfilter, hnone⟩ | ⟨call, hfilter, hcheck, hafter⟩
              · exact Or.inl ⟨hfilter, by simp only [deliver, hstep, hnone]⟩
              · refine Or.inr ⟨call, hfilter, hcheck, fun afterwards log' h => ?_⟩
                obtain ⟨memory, findings, later, hstep', hrest, rfl⟩ := deliver_cons_eq_some h
                cases hstep.symm.trans hstep'
                exact hafter later log' hrest

end

/-! ## all events -/

section

variable {ρ : Type} [Resolver ρ] (unit : String)

theorem continues_filter_callsFrom {checks : List Check} {i : Nat} {c : Check}
    (hc : checks[i]? = some c) (r : ρ) (log : IssueLog) (events : List Event) :
    Continues c (((callsFrom unit r checks log events).flatMap Prod.snd).filter (·.number = i)) := by
  induction events generalizing r checks c log with
  | nil => exact .nil
  | cons event events ih =>
      rw [callsFrom, List.flatMap_cons, List.filter_append]
      have hcases := filter_callsAt unit (Resolver.symbols (Resolver.on event r)) event hc 0 log
      rw [Nat.zero_add] at hcases
      rcases hcases with ⟨hfilter, hnone⟩ | ⟨call, hfilter, rfl, hafter⟩
      · rw [hfilter, hnone]
        exact .nil
      · rw [hfilter]
        cases hdeliver : deliver unit (Resolver.symbols (Resolver.on event r)) event checks log with
        | none =>
            cases hcall : call.after with
            | none => exact .crash hcall
            | some after => exact .step hcall .nil
        | some result =>
            obtain ⟨after, hcall, hget⟩ := hafter result.1 result.2 hdeliver
            exact .step hcall (ih hget _ _)

end

/-! ## a unit -/

section

variable {ρ : Type} [Resolver ρ] (u : SourceUnit) (r : ρ)

/-- **The calls of one check** go on from one another. -/
theorem continues_callsOf {checks : List Check} {i : Nat} {c : Check}
    (hc : checks[i]? = some c) : Continues c (u.callsOf r checks i) :=
  continues_filter_callsFrom u.name hc r .empty u.events

/-- **Where a finding comes from**: it is what the check that is called answers with, at an
event of the unit. -/
theorem exists_step_of_mem_callLog {checks : List Check} {call : Call}
    (hcall : call ∈ u.callLog r checks) {f : Finding} (hf : f ∈ call.findings) :
    call.event ∈ u.events ∧ ∃ c, checks[call.number]? = some c ∧
      ∃ context memory result, c.step context call.event memory = some result ∧ f ∈ result.2 := by
  have hnumber := number_lt_of_mem_callLog u r checks hcall
  have hmem : call ∈ u.callsOf r checks call.number :=
    List.mem_filter.2 ⟨hcall, decide_eq_true rfl⟩
  have hc := List.getElem?_eq_getElem hnumber
  obtain ⟨m, hcheck⟩ := (continues_callsOf u r hc).exists_memory hmem
  obtain ⟨result, hstep, hfound⟩ := Call.exists_step_of_mem_findings hcheck hf
  exact ⟨(map_event_callsOf u r hnumber).1.subset (List.mem_map_of_mem hmem),
    _, hc, call.context, m, result, hstep, hfound⟩

/-- **The walk over a unit.**  Its events are its beginning, the entries and exits of the
sites of the tree, nested as the tree is and in document order, its end, and the parser's
problems that are kept.  At each event all checks are called in their order, each with
what the resolver knows after it, and each goes on from its own last call; a run without a
crash makes all these calls, and its issues are what they find.  So what a check sees along
a unit is the same among any other checks. -/
theorem walk_protocol (checks : List Check) :
    (∃ visits, IsWalk u.tree visits ∧
      u.events = .enterSource u.tree ::
        (visits.map Visit.event ++ [.exitSource u.tree, .report (.ofProblems u.problems)])) ∧
    u.tree.sites.Nodup ∧ u.tree.sites.map (·.node) = u.tree.descendants ∧
    (u.callLog r checks).map Call.told <+: schedule (views r u.events) checks.length ∧
    ((process u r checks).2 = none ↔ ∃ call ∈ u.callLog r checks, call.answer = none) ∧
    (∀ issues, (process u r checks).2 = some issues →
      (u.callLog r checks).map Call.told = schedule (views r u.events) checks.length ∧
      issues = (IssueLog.empty.createAll ((u.callLog r checks).flatMap Call.findings)).issues) ∧
    (∀ i c, checks[i]? = some c → Continues c (u.callsOf r checks i)) ∧
    ∀ others i j issues issues', i < checks.length → j < others.length →
      (process u r checks).2 = some issues → (process u r others).2 = some issues' →
      (u.callsOf r checks i).map Call.seen = (u.callsOf r others j).map Call.seen := by
  obtain ⟨htold, hall⟩ := told_callLog u r checks
  refine ⟨⟨u.tree.visits, u.tree.isWalk_visits, ?_⟩, u.tree.nodup_sites, ?_, htold,
    process_snd_eq_none_iff u r checks,
    fun issues h => ⟨hall issues h, (process_snd_eq_some h).2⟩,
    fun i c hc => continues_callsOf u r hc, fun others i j issues issues' hi hj h h' => ?_⟩
  · rw [u.events_eq, Node.map_event_visits]
  · rw [map_node_sites, Node.descendants_eq_preorder]
  · rw [(seen_callsOf u r hi).2 issues h, (seen_callsOf u r hj).2 issues' h']

end

end QueryAudit
