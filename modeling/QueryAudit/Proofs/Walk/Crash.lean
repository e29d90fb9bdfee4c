import QueryAudit.Proofs.Walk.Calls

/-!
# QueryAudit.Proofs.Walk.Crash

Where a check crashes.  `CrashesAt` says that one of the checks crashes when they are told of
an event in their order, and `CrashesAfter` that this comes about at the last of some events.

* `deliver_eq_none_iff` — an event that is not delivered to all checks;
* `runEvents_eq_none_iff`, `process_eq_none_iff` — a run that does not come to its end.
-/

namespace QueryAudit

/-- A check crashes at an event, with the issues that the checks before it have left. -/
inductive CrashesAt (unit : String) (symbols : SymbolTable) (event : Event) :
    List Check → IssueLog → Prop
  | here {check : Check} {checks : List Check} {log : IssueLog}
      (h : check.step ⟨unit, symbols, log.issues⟩ event check.memory = none) :
      CrashesAt unit symbols event (check :: checks) log
  | later {check : Check} {checks : List Check} {log : IssueLog} {memory : check.Memory}
      {findings : List Finding}
      (h : check.step ⟨unit, symbols, log.issues⟩ event check.memory = some (memory, findings))
      (hrest : CrashesAt unit symbols event checks (log.createAll findings)) :
      CrashesAt unit symbols event (check :: checks) log

/-- **An event** does not get through to all checks exactly when one of them crashes. -/
theorem deliver_eq_none_iff {unit : String} {symbols : SymbolTable} {event : Event}
    {checks : List Check} {log : IssueLog} :
    deliver unit symbols event checks log = none ↔ CrashesAt unit symbols event checks log := by
  induction checks generalizing log with
  | nil => exact ⟨fun h => by simp [deliver] at h, nofun⟩
  | cons check checks ih =>
      rw [deliver]
      cases hstep : check.step ⟨unit, symbols, log.issues⟩ event check.memory with
      | none => exact ⟨fun _ => .here hstep, fun _ => rfl⟩
      | some result =>
          obtain ⟨memory, findings⟩ := result
          dsimp only
          constructor
          · intro h
            cases hrest : deliver unit symbols event checks (log.createAll findings) with
            | none => exact .later hstep (ih.1 hrest)
            | some rest => simp [hrest] at h
          · intro h
            cases h with
            | here hnone => simp [hstep] at hnone
            | later hsome hrest =>
                cases hstep.symm.trans hsome
                rw [ih.2 hrest]

section

variable {ρ : Type} [Resolver ρ]

/-- Checks are told of events, and at the last of these one of them crashes. -/
inductive CrashesAfter (unit : String) : ρ → List Check → IssueLog → List Event → Prop
  | here {r : ρ} {checks : List Check} {log : IssueLog} {event : Event}
      (h : CrashesAt unit (Resolver.symbols (Resolver.on event r)) event checks log) :
      CrashesAfter unit r checks log [event]
  | later {r : ρ} {checks after : List Check} {log log' : IssueLog} {event : Event}
      {met : List Event}
      (h : deliver unit (Resolver.symbols (Resolver.on event r)) event checks log
        = some (after, log'))
      (hrest : CrashesAfter unit (Resolver.on event r) after log' met) :
      CrashesAfter unit r checks log (event :: met)

/-- One of the checks crashes while a unit is processed. -/
def SourceUnit.Crashes (u : SourceUnit) (r : ρ) (checks : List Check) : Prop :=
  ∃ met, met <+: u.events ∧ CrashesAfter u.name r checks .empty met

/-- **A run** ends in a crash exactly when a check crashes at one of the events, and the
resolver is left as it is after that event. -/
theorem runEvents_eq_none_iff {unit : String} {r after : ρ} {checks : List Check} {log : IssueLog}
    {events : List Event} :
    runEvents unit r checks log events = (after, none) ↔
      ∃ met, met <+: events ∧ CrashesAfter unit r checks log met ∧
        met.foldl (fun r event => Resolver.on event r) r = after := by
  induction events generalizing r checks log with
  | nil =>
      constructor
      · intro h
        simp [runEvents] at h
      · rintro ⟨met, hmet, hcrash, -⟩
        rw [List.prefix_nil.1 hmet] at hcrash
        cases hcrash
  | cons event events ih =>
      rw [runEvents]
      -- either the first event is the last that is met, or the rest of the events decides
      cases hdeliver : deliver unit (Resolver.symbols (Resolver.on event r)) event checks log with
      | none =>
          constructor
          · intro h
            cases h
            exact ⟨[event], by simp, .here (deliver_eq_none_iff.1 hdeliver), rfl⟩
          · rintro ⟨met, hmet, hcrash, rfl⟩
            cases hcrash with
            | here h =>
                obtain ⟨rfl, -⟩ := List.cons_prefix_cons.1 hmet
                rfl
            | later h hrest =>
                obtain ⟨rfl, -⟩ := List.cons_prefix_cons.1 hmet
                simp [hdeliver] at h
      | some result =>
          obtain ⟨rest, log'⟩ := result
          refine ih.trans ?_
          constructor
          · rintro ⟨met, hmet, hcrash, hafter⟩
            exact ⟨event :: met, List.cons_prefix_cons.2 ⟨rfl, hmet⟩, .later hdeliver hcrash, hafter⟩
          · rintro ⟨met, hmet, hcrash, hafter⟩
            cases hcrash with
            | here h =>
                obtain ⟨rfl, -⟩ := List.cons_prefix_cons.1 hmet
                rw [deliver_eq_none_iff.2 h] at hdeliver
                contradiction
            | later h hrest =>
                obtain ⟨rfl, hbelow⟩ := List.cons_prefix_cons.1 hmet
                cases hdeliver.symm.trans h
                exact ⟨_, hbelow, hrest, hafter⟩

/-- Processing a unit leaves no issues exactly when a check crashes. -/
theorem process_eq_none_iff {u : SourceUnit} {r after : ρ} {checks : List Check} :
    process u r checks = (after, none) ↔
      ∃ met, met <+: u.events ∧ CrashesAfter u.name r checks .empty met ∧
        met.foldl (fun r event => Resolver.on event r) r = after := by
  rw [← runEvents_eq_none_iff, process]
  cases runEvents u.name r checks .empty u.events with
  | mk left log => cases log <;> simp

end

end QueryAudit
