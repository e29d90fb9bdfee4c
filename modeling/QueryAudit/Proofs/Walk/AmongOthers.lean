import QueryAudit.Proofs.Walk.FirstFinding
import QueryAudit.Proofs.Walk.OneRule
import QueryAudit.Proofs.Walk.SelfContained

/-!
# QueryAudit.Proofs.Walk.AmongOthers

One check among others that leave its rule alone, whatever else they do.  The issues of its
rule are then made of its own findings, and those of a self-contained check depend on the
events of the unit alone.

* `Spares`, `Regular.spares` — checks that raise no breach of a rule;
* `filter_flatMap_callLog` — of all that the calls find, a rule gets what its own check finds;
* `SelfContained.process_eq_none_iff` — a self-contained check is never what crashes;
* `SelfContained.filter_process` — the issues of its rule.
-/

namespace QueryAudit

namespace Check

/-- A check that raises no breach of a rule. -/
def Spares (key : String) (c : Check) : Prop :=
  ∀ context event memory result, c.step context event memory = some result →
    ∀ f ∈ result.2, f.rule ≠ key

/-- A regular check spares the rules of others. -/
theorem Regular.spares {key other : String} {c : Check} (h : c.Regular other) (hne : other ≠ key) :
    c.Spares key :=
  fun context event memory result hstep f hf =>
    h.rule_eq context event memory result hstep f hf ▸ hne

end Check

section

variable {ρ : Type} [Resolver ρ] {u : SourceUnit} {r : ρ} {checks : List Check} {i : Nat}
  {key : String}

/-- The parts of a list that pass a test are those of the members that pass another, when
these have no other parts and the rest has none of them. -/
theorem filter_flatMap_of_separate {α β : Type*} {l : List α} {p : α → Bool} {q : β → Bool}
    {parts : α → List β} (hin : ∀ a ∈ l, p a = true → ∀ b ∈ parts a, q b = true)
    (hout : ∀ a ∈ l, p a = false → ∀ b ∈ parts a, q b = false) :
    (l.flatMap parts).filter q = (l.filter p).flatMap parts := by
  induction l with
  | nil => rfl
  | cons a l ih =>
      have hrest := ih (fun b hb => hin b (List.mem_cons_of_mem a hb))
        fun b hb => hout b (List.mem_cons_of_mem a hb)
      rw [List.flatMap_cons, List.filter_append, hrest, List.filter_cons]
      cases ha : p a with
      | true => rw [if_pos rfl, List.flatMap_cons,
          List.filter_eq_self.2 (hin a List.mem_cons_self ha)]
      | false =>
          have hnone : (parts a).filter q = [] := List.filter_eq_nil_iff.2 fun b hb => by
            simp [hout a List.mem_cons_self ha b hb]
          rw [if_neg Bool.false_ne_true, hnone, List.nil_append]

/-- **All that the calls find**: a rule that the other checks spare gets what its own check
finds. -/
theorem filter_flatMap_callLog (hothers : ∀ j c, checks[j]? = some c → j ≠ i → c.Spares key)
    (hown : ∀ call ∈ u.callsOf r checks i, ∀ f ∈ call.findings, f.rule = key) :
    ((u.callLog r checks).flatMap Call.findings).filter (·.rule = key)
      = (u.callsOf r checks i).flatMap Call.findings := by
  rw [SourceUnit.callsOf]
  refine filter_flatMap_of_separate (fun call hcall hi f hf => ?_) fun call hcall hi f hf => ?_
  · exact decide_eq_true (hown call (List.mem_filter.2 ⟨hcall, hi⟩) f hf)
  · obtain ⟨-, other, hother, context, memory, result, hstep, hfound⟩ :=
      exists_step_of_mem_callLog u r hcall hf
    exact decide_eq_false
      (hothers _ other hother (of_decide_eq_false hi) context call.event memory result hstep f hfound)

end

namespace Check.SelfContained

variable {ρ : Type} [Resolver ρ] {u : SourceUnit} {r : ρ} {checks : List Check} {i : Nat}
  {c : Check} {next : c.Memory → Event → c.Memory} {found : Event → List Finding}
  (h : c.SelfContained next fun _ event => found event) {m : c.Memory}
  (hi : checks[i]? = some { c with memory := m })
include h hi

/-- Every call of the check finds what there is at its event. -/
theorem findings_of_mem_callsOf {call : Call} (hcall : call ∈ u.callsOf r checks i) :
    call.findings = found call.event := by
  obtain ⟨k, hk⟩ := List.mem_iff_getElem?.1 hcall
  obtain ⟨-, -, -, hfindings⟩ := h.getElem?_callsOf hi hk
  exact hfindings

/-- **A crash** of a unit is that of another check. -/
theorem process_eq_none_iff : (process u r checks).2 = none ↔
    ∃ call ∈ u.callLog r checks, call.number ≠ i ∧ call.answer = none := by
  refine (process_snd_eq_none_iff u r checks).trans ?_
  constructor
  · rintro ⟨call, hcall, hnone⟩
    refine ⟨call, hcall, fun hnumber => ?_, hnone⟩
    have hmem : call ∈ u.callsOf r checks i := List.mem_filter.2 ⟨hcall, decide_eq_true hnumber⟩
    exact h.answer_ne_none hi hmem hnone
  · rintro ⟨call, hcall, -, hnone⟩
    exact ⟨call, hcall, hnone⟩

/-- **The issues of its rule**, when the other checks spare it, are what the check finds at
the events of the unit. -/
theorem filter_process {key : String}
    (hothers : ∀ j other, checks[j]? = some other → j ≠ i → other.Spares key)
    (hown : ∀ event, ∀ f ∈ found event, f.rule = key) {issues : List Issue}
    (hprocess : (process u r checks).2 = some issues) :
    issues.filter (·.rule = key)
      = (IssueLog.empty.createAll (u.events.flatMap found)).issues := by
  have hfindings : ∀ call ∈ u.callsOf r checks i, call.findings = found call.event :=
    fun call hcall => h.findings_of_mem_callsOf hi hcall
  have hevents : (u.callsOf r checks i).map Call.event = u.events := by
    obtain ⟨hlt, -⟩ := List.getElem?_eq_some_iff.1 hi
    exact (map_event_callsOf u r hlt).2 _ hprocess
  have hall := filter_flatMap_callLog hothers fun call hcall f hf =>
    hown call.event f (hfindings call hcall ▸ hf)
  have hrule := IssueLog.ofRule_createAll key .empty ((u.callLog r checks).flatMap Call.findings)
  have hfound : (u.callsOf r checks i).flatMap Call.findings = u.events.flatMap found := by
    rw [List.flatMap_congr hfindings, ← hevents, List.flatMap_map]
  rw [hall, hfound] at hrule
  rw [(process_snd_eq_some hprocess).2]
  exact congrArg IssueLog.issues hrule

end Check.SelfContained

end QueryAudit
