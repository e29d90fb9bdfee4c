import QueryAudit.Proofs.Walk.Moment
import QueryAudit.Proofs.Walk.Protocol
import QueryAudit.Proofs.Walk.Raised
import QueryAudit.Rules.Rule

/-!
# QueryAudit.Proofs.Walk.SelfContained

Checks that look at nothing but the event and their memory.  The calls of such a check are
those of a machine that reads the events of a unit: its memory is a fold over the events
before, whatever the resolver knows and whichever other checks there are.

* `SelfContained.getElem?_callsOf` — the calls of the check in a list of checks;
* `SelfContained.process_alone` — the issues of a unit that is processed with it alone;
* `SelfContained.blamesLines_of_nodes` — these issues for a check that finds nodes at fault.
-/

namespace QueryAudit

/-- A run ends with breaches of one rule, on the given lines and on no others.  Lines count
from 1. -/
def BlamesLines (issues : Option (List Issue)) (key : String) (lines : UInt32 → Prop) : Prop :=
  ∃ found, issues = some found ∧ ∀ rule line,
    (∃ issue ∈ found, issue.rule = rule ∧ issue.line = line) ↔
      rule = key ∧ ∃ raw, lines raw ∧ max raw 1 = line

/-- Findings are breaches of one rule on one line under a condition, and there are none
otherwise. -/
def BlamesIf (findings : List Finding) (key : String) (raw : UInt32) (p : Prop) : Prop :=
  ∀ rule line, (∃ f ∈ findings, f.rule = rule ∧ max f.line 1 = line)
    ↔ p ∧ rule = key ∧ max raw 1 = line

theorem blamesIf_finding {info : RuleInfo} {raw : UInt32} {message : String} {p : Prop} (hp : p) :
    BlamesIf [info.finding raw message] info.key raw p := by
  intro rule line
  simp [RuleInfo.finding, hp, eq_comm]

theorem blamesIf_nil {key : String} {raw : UInt32} {p : Prop} (hp : ¬ p) :
    BlamesIf [] key raw p := by
  intro rule line
  simp [hp]

theorem blamesIf_ite {info : RuleInfo} {raw : UInt32} {message : String} {p : Prop} [Decidable p] :
    BlamesIf (if p then [info.finding raw message] else []) info.key raw p := by
  split
  · next hp => exact blamesIf_finding hp
  · next hp => exact blamesIf_nil hp

namespace Check

/-- The check never crashes, and its answer depends on its memory and the event alone. -/
def SelfContained (c : Check) (next : c.Memory → Event → c.Memory)
    (found : c.Memory → Event → List Finding) : Prop :=
  ∀ context event memory, c.step context event memory
    = some (next memory event, found memory event)

namespace SelfContained

variable {c : Check} {next : c.Memory → Event → c.Memory}
  {found : c.Memory → Event → List Finding} (h : c.SelfContained next found)
include h

/-! ## among other checks -/

theorem after_eq {call : Call} {m : c.Memory} (hcall : call.check = { c with memory := m }) :
    call.after = some { c with memory := next m call.event } ∧
      call.findings = found m call.event := by
  obtain ⟨number, check, event, context⟩ := call
  dsimp only at hcall
  subst hcall
  have hanswer : Call.answer ⟨number, { c with memory := m }, event, context⟩
      = some (next m event, found m event) := h context event m
  exact ⟨Call.after_of_answer hanswer, Call.findings_of_answer hanswer⟩

/-- The memory at a call is a fold over the events of the calls before it. -/
theorem check_of_continues {calls : List Call} {m : c.Memory}
    (hcalls : Continues { c with memory := m } calls) {k : Nat} {call : Call}
    (hk : calls[k]? = some call) :
    call.check = { c with memory := ((calls.take k).map Call.event).foldl next m } := by
  generalize hstart : ({ c with memory := m } : Check) = check at hcalls
  induction hcalls generalizing m k with
  | nil => simp at hk
  | crash =>
      cases k with
      | zero =>
          obtain rfl : _ = call := by simpa using hk
          exact hstart.symm
      | succ k => simp at hk
  | step hafter hrest ih =>
      cases k with
      | zero =>
          obtain rfl : _ = call := by simpa using hk
          exact hstart.symm
      | succ k =>
          have hnext := (h.after_eq hstart.symm).1
          exact ih (by simpa using hk) (Option.some.inj (hnext.symm.trans hafter))

/-- **The calls of the check** in a list of checks: its `k`-th call tells it of the `k`-th
event, with the memory that the events before have left. -/
theorem getElem?_callsOf {ρ : Type} [Resolver ρ] {u : SourceUnit} {r : ρ} {checks : List Check}
    {i : Nat} {m : c.Memory} (hi : checks[i]? = some { c with memory := m }) {k : Nat}
    {call : Call} (hk : (u.callsOf r checks i)[k]? = some call) :
    u.events[k]? = some call.event ∧
      call.check = { c with memory := (u.events.take k).foldl next m } ∧
      call.after = some { c with memory := (u.events.take (k + 1)).foldl next m } ∧
      call.findings = found ((u.events.take k).foldl next m) call.event := by
  obtain ⟨hlt, -⟩ := List.getElem?_eq_some_iff.1 hi
  obtain ⟨hklt, -⟩ := List.getElem?_eq_some_iff.1 hk
  obtain ⟨hevent, -⟩ := seen_of_getElem?_callsOf hk
  obtain ⟨rest, hrest⟩ := (map_event_callsOf u r hlt).1
  have htake : ((u.callsOf r checks i).take k).map Call.event = u.events.take k := by
    rw [← hrest, List.take_append_of_le_length (by simpa using Nat.le_of_lt hklt), List.map_take]
  have hcheck := h.check_of_continues (continues_callsOf u r hi) hk
  have hupto := take_add_one_of_getElem? hevent
  rw [htake] at hcheck
  rw [hupto, List.foldl_append]
  exact ⟨hevent, hcheck, h.after_eq hcheck⟩

/-- The check is never what crashes. -/
theorem answer_ne_none {ρ : Type} [Resolver ρ] {u : SourceUnit} {r : ρ} {checks : List Check}
    {i : Nat} {m : c.Memory} (hi : checks[i]? = some { c with memory := m }) {call : Call}
    (hcall : call ∈ u.callsOf r checks i) : call.answer ≠ none := by
  obtain ⟨k, hk⟩ := List.mem_iff_getElem?.1 hcall
  obtain ⟨-, -, hafter, -⟩ := h.getElem?_callsOf hi hk
  intro hnone
  rw [Call.after, hnone] at hafter
  contradiction

/-! ## alone -/

/-- **The issues** of a unit that is processed with the check alone: those that it finds at
one of the events, with the memory that the events before have left. -/
theorem process_alone {ρ : Type} [Resolver ρ] (u : SourceUnit) (r : ρ) (m : c.Memory) :
    ∃ issues, (process u r [{ c with memory := m }]).2 = some issues ∧ ∀ rule line,
      (∃ issue ∈ issues, issue.rule = rule ∧ issue.line = line) ↔
        ∃ before event after, u.events = before ++ event :: after ∧
          ∃ f ∈ found (before.foldl next m) event, f.rule = rule ∧ max f.line 1 = line := by
  have hown := callLog_singleton u r { c with memory := m }
  obtain ⟨issues, hissues⟩ : ∃ issues, (process u r [{ c with memory := m }]).2 = some issues := by
    refine Option.ne_none_iff_exists'.1 fun hnone => ?_
    obtain ⟨call, hcall, hanswer⟩ := (process_snd_eq_none_iff u r _).1 hnone
    exact h.answer_ne_none rfl (hown ▸ hcall) hanswer
  refine ⟨issues, hissues, fun rule line => ?_⟩
  rw [(process_snd_eq_some hissues).2, hown, exists_issue_createAll]
  constructor
  · rintro (⟨issue, hissue, -⟩ | ⟨f, hf, hplace⟩)
    · exact absurd hissue List.not_mem_nil
    · obtain ⟨call, hcall, hf⟩ := List.mem_flatMap.1 hf
      obtain ⟨k, hk⟩ := List.mem_iff_getElem?.1 hcall
      obtain ⟨hevent, -, -, hfindings⟩ := h.getElem?_callsOf rfl hk
      exact ⟨_, _, _, eq_take_append_cons_drop hevent, f, hfindings ▸ hf, hplace⟩
  · rintro ⟨before, event, after, heq, f, hf, hplace⟩
    have hevents := (map_event_callsOf u r Nat.zero_lt_one).2 issues hissues
    have hat : ((u.callsOf r [{ c with memory := m }] 0).map Call.event)[before.length]?
        = some event := by
      rw [hevents, heq, List.getElem?_append_right (Nat.le_refl _), Nat.sub_self,
        List.getElem?_cons_zero]
    rw [List.getElem?_map] at hat
    obtain ⟨call, hk, rfl⟩ := Option.map_eq_some_iff.1 hat
    obtain ⟨-, -, -, hfindings⟩ := h.getElem?_callsOf rfl hk
    rw [heq, List.take_left] at hfindings
    exact Or.inr ⟨f, List.mem_flatMap.2 ⟨call, List.mem_of_getElem? hk, hfindings ▸ hf⟩, hplace⟩

/-- **The issues at nodes** of a unit that is processed with the check alone, which finds
nodes at fault when they are entered and when they are left. -/
theorem blamesLines_of_nodes {ρ : Type} [Resolver ρ] {u : SourceUnit} {m : c.Memory}
    {key : String} (entered left : Node → Prop)
    (henter : ∀ before n after, u.events = before ++ .enter n :: after →
      BlamesIf (found (before.foldl next m) (.enter n)) key n.line (entered n))
    (hexit : ∀ before n after, u.events = before ++ .exit n :: after →
      BlamesIf (found (before.foldl next m) (.exit n)) key n.line (left n))
    (hrest : ∀ m event, (∀ n, event ≠ .enter n) → (∀ n, event ≠ .exit n) → found m event = [])
    (r : ρ) :
    BlamesLines (process u r [{ c with memory := m }]).2 key fun line =>
      ∃ n ∈ u.tree.preorder, n.line = line ∧ (entered n ∨ left n) := by
  obtain ⟨issues, hprocess, hissues⟩ := h.process_alone u r m
  refine ⟨issues, hprocess, fun rule line => (hissues rule line).trans ?_⟩
  constructor
  · rintro ⟨before, event, after, hevents, hfound⟩
    cases event with
    | enter n =>
        obtain ⟨hblamed, hkey, hline⟩ := (henter before n after hevents rule line).1 hfound
        have hn : n ∈ u.tree.preorder := SourceUnit.enter_mem_events_iff.1
          (hevents ▸ List.mem_append_right _ List.mem_cons_self)
        exact ⟨hkey, n.line, ⟨n, hn, rfl, Or.inl hblamed⟩, hline⟩
    | exit n =>
        obtain ⟨hblamed, hkey, hline⟩ := (hexit before n after hevents rule line).1 hfound
        have hn : n ∈ u.tree.preorder := SourceUnit.exit_mem_events_iff.1
          (hevents ▸ List.mem_append_right _ List.mem_cons_self)
        exact ⟨hkey, n.line, ⟨n, hn, rfl, Or.inr hblamed⟩, hline⟩
    | _ => simp [hrest] at hfound
  · rintro ⟨hkey, _, ⟨n, hn, rfl, hblamed | hblamed⟩, hline⟩
    · obtain ⟨before, after, hevents⟩ := List.append_of_mem (SourceUnit.enter_mem_events_iff.2 hn)
      exact ⟨before, .enter n, after, hevents,
        (henter before n after hevents rule line).2 ⟨hblamed, hkey, hline⟩⟩
    · obtain ⟨before, after, hevents⟩ := List.append_of_mem (SourceUnit.exit_mem_events_iff.2 hn)
      exact ⟨before, .exit n, after, hevents,
        (hexit before n after hevents rule line).2 ⟨hblamed, hkey, hline⟩⟩

end SelfContained

end Check

end QueryAudit
