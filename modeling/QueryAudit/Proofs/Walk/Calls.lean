import QueryAudit.Walk

/-!
# QueryAudit.Proofs.Walk.Calls

The calls that are made while a unit is processed.  A `Call` is one check, with the memory
that it has by then, told of one event.  `SourceUnit.calls` lists the events that come up,
each with the calls at it, up to the end or to the first crash; `SourceUnit.callLog` has
these calls one after the other, and `SourceUnit.callsOf` those of one check of the list.

* `deliver_eq`, `runEvents_eq`, `process_eq` — an event, a run and a unit leave what their
  calls leave;
* `told_callLog` — at each event the checks are called in their order, with what the
  resolver knows after it;
* `seen_callsOf` — what one check of the list sees along a unit.
-/

namespace QueryAudit

/-! ## events -/

/-- The walk over the tree stands between the start of a unit and its end. -/
theorem SourceUnit.events_eq (u : SourceUnit) :
    u.events = .enterSource u.tree
      :: (u.tree.events ++ [.exitSource u.tree, .report (.ofProblems u.problems)]) := by
  simp [SourceUnit.events, walkEvents]

/-- A first part of the events of a unit is empty, or ends in the walk over the tree,
or has all of that walk. -/
theorem SourceUnit.events_eq_append {u : SourceUnit} {before after : List Event}
    (h : u.events = before ++ after) :
    before = [] ∨
      (∃ met rest, before = .enterSource u.tree :: met ∧ u.tree.events = met ++ rest
        ∧ after ≠ []) ∨
      ∃ ending, before = .enterSource u.tree :: (u.tree.events ++ ending)
        ∧ ending ⊆ [.exitSource u.tree, .report (.ofProblems u.problems)] := by
  rw [SourceUnit.events_eq] at h
  cases before with
  | nil => exact Or.inl rfl
  | cons event before =>
      obtain ⟨rfl, htail⟩ := List.cons.inj h
      rcases List.append_eq_append_iff.1 htail with
        ⟨ending, rfl, hending⟩ | ⟨rest, htree, hafter⟩
      · exact Or.inr (Or.inr ⟨ending, rfl, hending ▸ List.subset_append_left ending after⟩)
      · exact Or.inr (Or.inl ⟨before, rest, rfl, htree, by simp [hafter]⟩)

section

variable {ρ : Type} [Resolver ρ]

theorem length_views (r : ρ) (events : List Event) : (views r events).length = events.length := by
  induction events generalizing r with
  | nil => rfl
  | cons event events ih => rw [views, List.length_cons, List.length_cons, ih]

/-- What is seen at an event is what the resolver knows after it. -/
theorem getElem?_views (r : ρ) (events : List Event) (k : Nat) :
    (views r events)[k]? = events[k]?.map fun event =>
      (event, Resolver.symbols
        ((events.take (k + 1)).foldl (fun r event => Resolver.on event r) r)) := by
  induction events generalizing r k with
  | nil => rfl
  | cons event events ih =>
      cases k with
      | zero => simp [views]
      | succ k => simpa [views] using ih (Resolver.on event r) k

/-- Along a run every event is seen. -/
theorem map_fst_views (r : ρ) (events : List Event) : (views r events).map Prod.fst = events := by
  induction events generalizing r with
  | nil => rfl
  | cons event events ih => rw [views, List.map_cons, ih]

end

/-! ## calls -/

/-- One call of a check. -/
structure Call where
  /-- The place of the check in the list of checks. -/
  number : Nat
  /-- The check, with the memory that it has before the call. -/
  check : Check
  event : Event
  context : Context

namespace Call

/-- What the check answers; `none` when it crashes. -/
def answer (c : Call) : Option (c.check.Memory × List Finding) :=
  c.check.step c.context c.event c.check.memory

/-- The check with the memory that it has after the call. -/
def after (c : Call) : Option Check :=
  c.answer.map fun result => { c.check with memory := result.1 }

/-- What the check finds. -/
def findings (c : Call) : List Finding := (c.answer.map (·.2)).getD []

/-- What the check sees: the event and what the resolver knows. -/
def seen (c : Call) : Event × SymbolTable := (c.event, c.context.symbols)

/-- Which check is called, and what it sees. -/
def told (c : Call) : Nat × Event × SymbolTable := (c.number, c.seen)

variable {c : Call} {result : c.check.Memory × List Finding} (h : c.answer = some result)
include h

theorem after_of_answer : c.after = some { c.check with memory := result.1 } := by
  rw [after, h, Option.map_some]

theorem findings_of_answer : c.findings = result.2 := by
  rw [findings, h, Option.map_some, Option.getD_some]

end Call

/-- The calls at one event, up to a crash; `base` is the number of the first check. -/
def callsAt (unit : String) (symbols : SymbolTable) (event : Event) (base : Nat) :
    List Check → IssueLog → List Call
  | [], _ => []
  | check :: checks, log =>
    ⟨base, check, event, ⟨unit, symbols, log.issues⟩⟩ ::
      match check.step ⟨unit, symbols, log.issues⟩ event check.memory with
      | none => []
      | some (_, findings) =>
        callsAt unit symbols event (base + 1) checks (log.createAll findings)

/-- Whether all calls are answered. -/
def answered (calls : List Call) : Bool := calls.all (·.answer.isSome)

/-- The log with all that calls find; there is none when one of them is not answered. -/
def logAfter (calls : List Call) (log : IssueLog) : Option IssueLog :=
  if answered calls then some (log.createAll (calls.flatMap Call.findings)) else none

/-- The order of calls when nothing crashes: at each event all checks in turn, each with
what is seen at the event. -/
def schedule (views : List (Event × SymbolTable)) (checks : Nat) :
    List (Nat × Event × SymbolTable) :=
  views.flatMap fun view => (List.range checks).map fun i => (i, view)

section

variable {ρ : Type} [Resolver ρ]

/-- Events with the calls at each, up to a crash. -/
def callsFrom (unit : String) (r : ρ) (checks : List Check) (log : IssueLog) :
    List Event → List (Event × List Call)
  | [] => []
  | event :: events =>
    let r := Resolver.on event r
    (event, callsAt unit (Resolver.symbols r) event 0 checks log) ::
      match deliver unit (Resolver.symbols r) event checks log with
      | none => []
      | some (checks, log) => callsFrom unit r checks log events

/-- The events that come up while a unit is processed, each with the calls at it. -/
def SourceUnit.calls (u : SourceUnit) (r : ρ) (checks : List Check) :
    List (Event × List Call) :=
  callsFrom u.name r checks .empty u.events

/-- The calls that are made while a unit is processed. -/
def SourceUnit.callLog (u : SourceUnit) (r : ρ) (checks : List Check) : List Call :=
  (u.calls r checks).flatMap (·.2)

/-- The calls of one check of the list. -/
def SourceUnit.callsOf (u : SourceUnit) (r : ρ) (checks : List Check) (i : Nat) : List Call :=
  (u.callLog r checks).filter (·.number = i)

end

/-! ## what calls leave -/

theorem answered_eq_false_iff {calls : List Call} :
    answered calls = false ↔ ∃ call ∈ calls, call.answer = none := by
  simp [answered]

theorem logAfter_eq_none_iff {calls : List Call} {log : IssueLog} :
    logAfter calls log = none ↔ ∃ call ∈ calls, call.answer = none := by
  rw [← answered_eq_false_iff, logAfter]
  cases answered calls <;> simp

theorem logAfter_eq_some_iff {calls : List Call} {log log' : IssueLog} :
    logAfter calls log = some log' ↔
      answered calls = true ∧ log' = log.createAll (calls.flatMap Call.findings) := by
  rw [logAfter]
  cases answered calls <;> simp [eq_comm]

theorem answered_append (before after : List Call) :
    answered (before ++ after) = (answered before && answered after) :=
  List.all_append

/-- The calls after some others find a log with what these have found. -/
theorem logAfter_append (before after : List Call) (log : IssueLog) :
    logAfter (before ++ after) log = (logAfter before log).bind (logAfter after) := by
  rw [logAfter, logAfter, answered_append, List.flatMap_append, IssueLog.createAll_append]
  cases answered before with
  | true => rfl
  | false => rfl

theorem logAfter_cons_of_none {call : Call} (h : call.answer = none) (calls : List Call)
    (log : IssueLog) : logAfter (call :: calls) log = none :=
  logAfter_eq_none_iff.2 ⟨call, List.mem_cons_self, h⟩

theorem logAfter_cons_of_some {call : Call} {result : call.check.Memory × List Finding}
    (h : call.answer = some result) (calls : List Call) (log : IssueLog) :
    logAfter (call :: calls) log = logAfter calls (log.createAll result.2) := by
  have hfirst : logAfter [call] log = some (log.createAll result.2) :=
    logAfter_eq_some_iff.2 ⟨by simp [answered, h], by simp [Call.findings_of_answer h]⟩
  rw [← List.singleton_append, logAfter_append, hfirst, Option.bind_some]

/-! ## one event -/

/-- **An event that gets through** to all checks: the first one answers, and the event gets
through to the others. -/
theorem deliver_cons_eq_some {unit : String} {symbols : SymbolTable} {event : Event}
    {check : Check} {checks after : List Check} {log log' : IssueLog}
    (h : deliver unit symbols event (check :: checks) log = some (after, log')) :
    ∃ memory findings later,
      check.step ⟨unit, symbols, log.issues⟩ event check.memory = some (memory, findings) ∧
      deliver unit symbols event checks (log.createAll findings) = some (later, log') ∧
      after = { check with memory := memory } :: later := by
  rw [deliver] at h
  cases hstep : check.step ⟨unit, symbols, log.issues⟩ event check.memory with
  | none => simp [hstep] at h
  | some result =>
      obtain ⟨memory, findings⟩ := result
      rw [hstep] at h
      cases hrest : deliver unit symbols event checks (log.createAll findings) with
      | none => simp [hrest] at h
      | some rest =>
          simp only [hrest, Option.some.injEq, Prod.mk.injEq] at h
          obtain ⟨rfl, rfl⟩ := h
          exact ⟨memory, findings, rest.1, rfl, hrest, rfl⟩

theorem length_of_deliver {unit : String} {symbols : SymbolTable} {event : Event}
    {checks after : List Check} {log log' : IssueLog}
    (h : deliver unit symbols event checks log = some (after, log')) :
    after.length = checks.length := by
  induction checks generalizing log after with
  | nil =>
      cases h
      rfl
  | cons check checks ih =>
      obtain ⟨memory, findings, later, -, hrest, rfl⟩ := deliver_cons_eq_some h
      rw [List.length_cons, List.length_cons, ih hrest]

section

variable (unit : String) (symbols : SymbolTable) (event : Event)

/-- **One event** leaves what the calls at it leave: the checks after them, and the log with
what they find. -/
theorem deliver_eq (base : Nat) (checks : List Check) (log : IssueLog) :
    deliver unit symbols event checks log
      = (logAfter (callsAt unit symbols event base checks log) log).map fun log' =>
        ((callsAt unit symbols event base checks log).filterMap Call.after, log') := by
  induction checks generalizing base log with
  | nil => rfl
  | cons check checks ih =>
      rw [deliver, callsAt]
      cases hstep : check.step ⟨unit, symbols, log.issues⟩ event check.memory with
      | none =>
          have hanswer : Call.answer ⟨base, check, event, ⟨unit, symbols, log.issues⟩⟩ = none :=
            hstep
          rw [logAfter_cons_of_none hanswer]
          rfl
      | some result =>
          have hanswer : Call.answer ⟨base, check, event, ⟨unit, symbols, log.issues⟩⟩
              = some result := hstep
          dsimp only
          rw [logAfter_cons_of_some hanswer,
            List.filterMap_cons_some (Call.after_of_answer hanswer), ih (base + 1)]
          cases logAfter (callsAt unit symbols event (base + 1) checks (log.createAll result.2))
            (log.createAll result.2) <;> rfl

/-- An event gets through to all checks when the calls at it are answered. -/
theorem answered_callsAt (base : Nat) (checks : List Check) (log : IssueLog) :
    answered (callsAt unit symbols event base checks log)
      = (deliver unit symbols event checks log).isSome := by
  rw [deliver_eq unit symbols event base, Option.isSome_map, logAfter]
  cases answered (callsAt unit symbols event base checks log) <;> rfl

/-- **At one event** the checks are called in their order, and all of them when each call is
answered. -/
theorem told_callsAt (base : Nat) (checks : List Check) (log : IssueLog) :
    (callsAt unit symbols event base checks log).map Call.told
        <+: (List.range' base checks.length).map (fun i => (i, event, symbols)) ∧
      (answered (callsAt unit symbols event base checks log) = true →
        (callsAt unit symbols event base checks log).map Call.told
          = (List.range' base checks.length).map fun i => (i, event, symbols)) := by
  induction checks generalizing base log with
  | nil => exact ⟨List.prefix_refl _, fun _ => rfl⟩
  | cons check checks ih =>
      rw [callsAt, List.length_cons, List.range'_succ, List.map_cons, List.map_cons]
      cases hstep : check.step ⟨unit, symbols, log.issues⟩ event check.memory with
      | none =>
          have hanswer : Call.answer ⟨base, check, event, ⟨unit, symbols, log.issues⟩⟩ = none :=
            hstep
          refine ⟨by simp [Call.told, Call.seen], fun h => ?_⟩
          rw [answered_eq_false_iff.2 ⟨_, List.mem_cons_self, hanswer⟩] at h
          contradiction
      | some result =>
          obtain ⟨htold, hall⟩ := ih (base + 1) (log.createAll result.2)
          refine ⟨List.cons_prefix_cons.2 ⟨rfl, htold⟩, fun h => congrArg (_ :: ·) (hall ?_)⟩
          exact (Bool.and_eq_true_iff.1 h).2

end

/-! ## all events -/

theorem schedule_cons (view : Event × SymbolTable) (views : List (Event × SymbolTable)) (n : Nat) :
    schedule (view :: views) n = (List.range n).map (fun i => (i, view)) ++ schedule views n :=
  List.flatMap_cons

/-- Each check of the list comes up once at each event. -/
theorem filter_schedule {i n : Nat} (hi : i < n) (views : List (Event × SymbolTable)) :
    ((schedule views n).filter (·.1 = i)).map (·.2) = views := by
  induction views with
  | nil => rfl
  | cons view views ih =>
      have hone : (List.range n).filter (· = i) = [i] := by
        rw [List.filter_eq, List.count_range, if_pos hi]
        rfl
      rw [schedule_cons, List.filter_append, List.map_append, ih, List.filter_map]
      have hcomp : (fun told : Nat × Event × SymbolTable => decide (told.1 = i))
          ∘ (fun i => (i, view)) = fun k => decide (k = i) := rfl
      rw [hcomp, hone]
      rfl

section

variable {ρ : Type} [Resolver ρ] (unit : String)

/-- **A run** leaves what its calls leave: the resolver after the events that come up, and the
log with what the calls find. -/
theorem runEvents_eq (r : ρ) (checks : List Check) (log : IssueLog) (events : List Event) :
    runEvents unit r checks log events
      = (((callsFrom unit r checks log events).map Prod.fst).foldl
          (fun r event => Resolver.on event r) r,
        logAfter ((callsFrom unit r checks log events).flatMap Prod.snd) log) := by
  induction events generalizing r checks log with
  | nil => rfl
  | cons event events ih =>
      have hevent := deliver_eq unit (Resolver.symbols (Resolver.on event r)) event 0 checks log
      rw [runEvents, callsFrom]
      cases hlog : logAfter
          (callsAt unit (Resolver.symbols (Resolver.on event r)) event 0 checks log) log with
      | none =>
          rw [hlog, Option.map_none] at hevent
          rw [hevent, List.flatMap_cons, logAfter_append, hlog]
          rfl
      | some log' =>
          rw [hlog, Option.map_some] at hevent
          rw [hevent, List.flatMap_cons, logAfter_append, hlog]
          exact ih _ _ _

/-- The events that come up are the first ones, and all of them when each call is answered. -/
theorem map_fst_callsFrom (r : ρ) (checks : List Check) (log : IssueLog) (events : List Event) :
    (callsFrom unit r checks log events).map Prod.fst <+: events ∧
      (answered ((callsFrom unit r checks log events).flatMap Prod.snd) = true →
        (callsFrom unit r checks log events).map Prod.fst = events) := by
  induction events generalizing r checks log with
  | nil => exact ⟨List.prefix_refl _, fun _ => rfl⟩
  | cons event events ih =>
      have hanswered := answered_callsAt unit (Resolver.symbols (Resolver.on event r)) event 0
        checks log
      rw [callsFrom, List.map_cons, List.flatMap_cons, answered_append, hanswered]
      cases deliver unit (Resolver.symbols (Resolver.on event r)) event checks log with
      | none =>
          exact ⟨List.cons_prefix_cons.2 ⟨rfl, List.nil_prefix⟩, fun h => absurd h Bool.false_ne_true⟩
      | some result =>
          obtain ⟨hfirst, hall⟩ := ih (Resolver.on event r) result.1 result.2
          exact ⟨List.cons_prefix_cons.2 ⟨rfl, hfirst⟩, fun h => congrArg (event :: ·) (hall h)⟩

/-- **The order of the calls** along a run: at each event the checks in turn, each with what
the resolver knows after it, up to a crash. -/
theorem told_callsFrom (r : ρ) (checks : List Check) (log : IssueLog) (events : List Event) :
    ((callsFrom unit r checks log events).flatMap Prod.snd).map Call.told
        <+: schedule (views r events) checks.length ∧
      (answered ((callsFrom unit r checks log events).flatMap Prod.snd) = true →
        ((callsFrom unit r checks log events).flatMap Prod.snd).map Call.told
          = schedule (views r events) checks.length) := by
  induction events generalizing r checks log with
  | nil => exact ⟨List.prefix_refl _, fun _ => rfl⟩
  | cons event events ih =>
      obtain ⟨htold, hall⟩ := told_callsAt unit (Resolver.symbols (Resolver.on event r)) event 0
        checks log
      rw [answered_callsAt, ← List.range_eq_range'] at hall
      rw [← List.range_eq_range'] at htold
      rw [callsFrom, views, schedule_cons, List.flatMap_cons, List.map_append, answered_append,
        answered_callsAt]
      cases hdeliver : deliver unit (Resolver.symbols (Resolver.on event r)) event checks log with
      | none =>
          rw [List.flatMap_nil, List.map_nil, List.append_nil]
          exact ⟨htold.trans (List.prefix_append _ _), fun h => absurd h Bool.false_ne_true⟩
      | some result =>
          obtain ⟨hrest, hend⟩ := ih (Resolver.on event r) result.1 result.2
          rw [length_of_deliver hdeliver] at hrest hend
          rw [hall (by rw [hdeliver]; rfl)]
          exact ⟨(List.prefix_append_right_inj _).2 hrest, fun h => congrArg _ (hend h)⟩

end

/-! ## a unit -/

section

variable {ρ : Type} [Resolver ρ] (u : SourceUnit) (r : ρ) (checks : List Check)

/-- **A unit** leaves what its calls leave. -/
theorem process_eq :
    process u r checks
      = (((u.calls r checks).map Prod.fst).foldl (fun r event => Resolver.on event r) r,
        (logAfter (u.callLog r checks) .empty).map IssueLog.issues) := by
  rw [process, runEvents_eq]
  rfl

/-- The issues are missing when a call is not answered. -/
theorem process_snd_eq_none_iff :
    (process u r checks).2 = none ↔ ∃ call ∈ u.callLog r checks, call.answer = none := by
  rw [process_eq, Option.map_eq_none_iff, logAfter_eq_none_iff]

variable {u r checks}

/-- Otherwise they are what the calls find. -/
theorem process_snd_eq_some {issues : List Issue} (h : (process u r checks).2 = some issues) :
    answered (u.callLog r checks) = true ∧
      issues = (IssueLog.empty.createAll ((u.callLog r checks).flatMap Call.findings)).issues := by
  rw [process_eq] at h
  obtain ⟨log, hlog, rfl⟩ := Option.map_eq_some_iff.1 h
  obtain ⟨hanswered, rfl⟩ := logAfter_eq_some_iff.1 hlog
  exact ⟨hanswered, rfl⟩

variable (u r checks)

/-- **The order of the calls** in a unit, up to a crash. -/
theorem told_callLog :
    (u.callLog r checks).map Call.told <+: schedule (views r u.events) checks.length ∧
      ∀ issues, (process u r checks).2 = some issues →
        (u.callLog r checks).map Call.told = schedule (views r u.events) checks.length := by
  obtain ⟨htold, hall⟩ := told_callsFrom u.name r checks .empty u.events
  exact ⟨htold, fun issues h => hall (process_snd_eq_some h).1⟩

/-- Every call is one of a check of the list. -/
theorem number_lt_of_mem_callLog {call : Call} (h : call ∈ u.callLog r checks) :
    call.number < checks.length := by
  have htold : call.told ∈ schedule (views r u.events) checks.length :=
    (told_callLog u r checks).1.subset (List.mem_map_of_mem h)
  obtain ⟨view, -, hview⟩ := List.mem_flatMap.1 htold
  obtain ⟨j, hj, heq⟩ := List.mem_map.1 hview
  have hnumber : j = call.number := congrArg Prod.fst heq
  exact hnumber ▸ List.mem_range.1 hj

/-- A check that is alone makes all calls. -/
theorem callLog_singleton (check : Check) : u.callLog r [check] = u.callsOf r [check] 0 := by
  refine (List.filter_eq_self.2 fun call hcall => decide_eq_true ?_).symm
  exact Nat.lt_one_iff.1 (number_lt_of_mem_callLog u r [check] hcall)

theorem map_seen_callsOf (i : Nat) :
    (u.callsOf r checks i).map Call.seen
      = (((u.callLog r checks).map Call.told).filter (·.1 = i)).map (·.2) := by
  rw [SourceUnit.callsOf, List.filter_map, List.map_map]
  rfl

variable {checks}

/-- **What a check sees** is a first part of what there is to see, and all of it when no check
crashes. -/
theorem seen_callsOf {i : Nat} (hi : i < checks.length) :
    (u.callsOf r checks i).map Call.seen <+: views r u.events ∧
      ∀ issues, (process u r checks).2 = some issues →
        (u.callsOf r checks i).map Call.seen = views r u.events := by
  obtain ⟨htold, hall⟩ := told_callLog u r checks
  rw [map_seen_callsOf]
  constructor
  · have hseen := (htold.filter (·.1 = i)).map (·.2)
    rwa [filter_schedule hi] at hseen
  · intro issues h
    rw [hall issues h, filter_schedule hi]

/-- The events that a check is told of. -/
theorem map_event_callsOf {i : Nat} (hi : i < checks.length) :
    (u.callsOf r checks i).map Call.event <+: u.events ∧
      ∀ issues, (process u r checks).2 = some issues →
        (u.callsOf r checks i).map Call.event = u.events := by
  obtain ⟨hseen, hall⟩ := seen_callsOf u r hi
  have hevent : (u.callsOf r checks i).map Call.event
      = ((u.callsOf r checks i).map Call.seen).map Prod.fst := by
    rw [List.map_map]
    rfl
  rw [hevent]
  constructor
  · exact map_fst_views r u.events ▸ hseen.map Prod.fst
  · exact fun issues h => (congrArg (List.map Prod.fst) (hall issues h)).trans (map_fst_views r _)

variable {u r}

theorem lt_length_of_mem_callsOf {i : Nat} {call : Call} (h : call ∈ u.callsOf r checks i) :
    i < checks.length := by
  obtain ⟨hcall, hi⟩ := List.mem_filter.1 h
  exact of_decide_eq_true hi ▸ number_lt_of_mem_callLog u r checks hcall

/-- **One call of a check**: its `k`-th call tells it of the `k`-th event, with what the
resolver knows after it. -/
theorem seen_of_getElem?_callsOf {i k : Nat} {call : Call}
    (h : (u.callsOf r checks i)[k]? = some call) :
    u.events[k]? = some call.event ∧ call.context.symbols = Resolver.symbols
      ((u.events.take (k + 1)).foldl (fun r event => Resolver.on event r) r) := by
  have hi := lt_length_of_mem_callsOf (List.mem_of_getElem? h)
  have hseen : ((u.callsOf r checks i).map Call.seen)[k]? = some call.seen := by
    rw [List.getElem?_map, h, Option.map_some]
  obtain ⟨rest, hrest⟩ := (seen_callsOf u r hi).1
  obtain ⟨hk, -⟩ := List.getElem?_eq_some_iff.1 hseen
  rw [← List.getElem?_append_left hk, hrest, getElem?_views] at hseen
  obtain ⟨event, hevent, hcall⟩ := Option.map_eq_some_iff.1 hseen
  obtain ⟨rfl, hsymbols⟩ := Prod.mk.inj hcall
  exact ⟨hevent, hsymbols.symm⟩

end

end QueryAudit
