import Mathlib.Data.List.Nodup
import QueryAudit.Proofs.Walk.Raised
import QueryAudit.Rules.Rule

/-!
# QueryAudit.Proofs.Walk.OneRule

The issues of one rule among those of all.  A log drops a finding only for an issue of the
same rule, so that the issues of a rule are made of its own findings.

* `ofRule_createAll` — the issues of a rule in a log;
* `filter_raised` — of what regular checks raise, a rule gets what its check finds alone.
-/

namespace QueryAudit

/-! ## the log -/

namespace IssueLog

/-- The issues of one rule, in their order. -/
def ofRule (key : String) (log : IssueLog) : IssueLog := ⟨log.issues.filter (·.rule = key)⟩

/-- A finding is covered by an issue of its own rule. -/
theorem covers_ofRule (log : IssueLog) (i : Issue) : (log.ofRule i.rule).covers i = log.covers i := by
  rw [covers, ofRule, List.any_filter, covers]
  refine congrArg log.issues.any (funext fun j => ?_)
  by_cases h : j.rule = i.rule <;> simp [h]

/-- A finding of one rule leaves the issues of the others as they are. -/
theorem ofRule_create (key : String) (log : IssueLog) (f : Finding) :
    (log.create f).ofRule key
      = if f.rule = key then (log.ofRule key).create f else log.ofRule key := by
  by_cases hkey : f.rule = key
  · subst hkey
    have hcovers : (log.ofRule f.rule).covers f.toIssue = log.covers f.toIssue :=
      log.covers_ofRule f.toIssue
    rw [if_pos rfl, create, create, hcovers]
    cases log.covers f.toIssue with
    | true => rfl
    | false => simp [ofRule, Finding.toIssue]
  · rw [if_neg hkey, create]
    cases log.covers f.toIssue with
    | true => rfl
    | false => simp [ofRule, Finding.toIssue, hkey]

/-- **The issues of a rule** are made of the findings of that rule. -/
theorem ofRule_createAll (key : String) (log : IssueLog) (fs : List Finding) :
    (log.createAll fs).ofRule key = (log.ofRule key).createAll (fs.filter (·.rule = key)) := by
  induction fs generalizing log with
  | nil => rfl
  | cons f fs ih =>
      refine (ih (log.create f)).trans ?_
      rw [ofRule_create]
      by_cases hkey : f.rule = key
      · rw [if_pos hkey, List.filter_cons_of_pos (by simpa using hkey)]
        rfl
      · rw [if_neg hkey, List.filter_cons_of_neg (by simpa using hkey)]

end IssueLog

/-! ## what is raised -/

/-- What passes a test among the parts of a list are those of the only member whose parts
pass it. -/
theorem filter_flatMap_of_unique {α β : Type*} {l : List α} {parts : α → List β} {p : β → Bool}
    {a : α} (hnodup : l.Nodup) (ha : a ∈ l) (hown : ∀ x ∈ parts a, p x = true)
    (hother : ∀ b ∈ l, b ≠ a → ∀ x ∈ parts b, p x = false) :
    (l.flatMap parts).filter p = parts a := by
  have hnone : ∀ b ∈ l, b ≠ a → (parts b).filter p = [] := fun b hb hne =>
    List.filter_eq_nil_iff.2 fun x hx => by simp [hother b hb hne x hx]
  obtain ⟨before, after, rfl⟩ := List.append_of_mem ha
  obtain ⟨hnotin, -⟩ := List.nodup_cons.1 (List.nodup_middle.1 hnodup)
  have hbefore : ∀ b ∈ before, (parts b).filter p = [] := fun b hb =>
    hnone b (List.mem_append_left _ hb) fun heq => hnotin (List.mem_append_left _ (heq ▸ hb))
  have hafter : ∀ b ∈ after, (parts b).filter p = [] := fun b hb =>
    hnone b (List.mem_append_right _ (List.mem_cons_of_mem a hb))
      fun heq => hnotin (List.mem_append_right _ (heq ▸ hb))
  rw [List.filter_flatMap, List.flatMap_append, List.flatMap_cons,
    List.flatMap_eq_nil_iff.2 hbefore, List.flatMap_eq_nil_iff.2 hafter,
    List.filter_eq_self.2 hown, List.nil_append, List.append_nil]

theorem Check.Regular.rule_of_mem_getD {key : String} {c : Check} (h : c.Regular key)
    {unit : String} {views : List (Event × SymbolTable)} {k : Nat} {f : Finding}
    (hf : f ∈ ((c.findings unit views)[k]?).getD []) : f.rule = key := by
  cases hfound : (c.findings unit views)[k]? with
  | none => simp [hfound] at hf
  | some found =>
      rw [hfound] at hf
      exact h.rule_of_mem_findings (List.mem_of_getElem? hfound) hf

section

variable {ρ : Type} [Resolver ρ] {config : Config} {rules : List Rule}
  (hregular : ∀ rule ∈ rules, (rule.check config).Regular rule.info.key)
  (hnodup : (rules.map (·.info.key)).Nodup) {rule : Rule} (hrule : rule ∈ rules)
include hregular hnodup hrule

/-- **At each event** a rule gets the findings of its own check. -/
theorem filter_raised (u : SourceUnit) (r : ρ) :
    (u.raised r (rules.map fun rule => rule.check config)).map
        (fun raised => raised.2.filter (·.rule = rule.info.key))
      = (rule.check config).findings u.name (views r u.events) := by
  have hchecks : ∀ c ∈ rules.map fun rule => rule.check config, ∃ key, c.Regular key := by
    intro c hc
    obtain ⟨other, hother, rfl⟩ := List.mem_map.1 hc
    exact ⟨other.info.key, hregular other hother⟩
  refine List.ext_getElem? fun k => ?_
  rw [List.getElem?_map, getElem?_raised hchecks, Option.map_map]
  by_cases hk : k < u.events.length
  · have hlength : k < ((rule.check config).findings u.name (views r u.events)).length := by
      rwa [Check.length_findings, length_views]
    rw [List.getElem?_eq_getElem hk, Option.map_some, Function.comp, List.flatMap_map]
    dsimp only
    -- the other rules have other keys, so that nothing of theirs passes the filter
    rw [filter_flatMap_of_unique (hnodup.of_map _) hrule, List.getElem?_eq_getElem hlength]
    · rfl
    · exact fun f hf => decide_eq_true ((hregular rule hrule).rule_of_mem_getD hf)
    · intro other hother hne f hf
      rw [(hregular other hother).rule_of_mem_getD hf]
      exact decide_eq_false (mt (List.inj_on_of_nodup_map hnodup hother hrule) hne)
  · have hlength : ((rule.check config).findings u.name (views r u.events)).length ≤ k := by
      rw [Check.length_findings, length_views]
      exact Nat.not_lt.1 hk
    rw [List.getElem?_eq_none (Nat.not_lt.1 hk), List.getElem?_eq_none hlength]
    rfl

end

end QueryAudit
