import QueryAudit.Registry
import QueryAudit.Walk

/-!
# QueryAudit.Proofs.Rules.Extensional

What checks can see of the names that are known.  Two symbol tables agree when
all look-ups, the imports and the module are the same, however their frames are
laid out.  A check is extensional when it answers the same to tables that agree.

* `extensional_of_mem_standardRules` — the check of every standard rule is extensional;
* `eq_filter_of_active` — which rules are active;
* `runEvents_congr` — extensional checks find the same issues with two resolvers
  whose tables agree after each event.
-/

namespace QueryAudit

/-! ## tables that agree -/

/-- The same is known of every name. -/
structure SymbolTable.Agree (t t' : SymbolTable) : Prop where
  lookup_eq : ∀ key, t.scopes.lookup key = t'.scopes.lookup key
  imports_eq : t.imports = t'.imports
  module_eq : t.module = t'.module

namespace SymbolTable.Agree

variable {t t' : SymbolTable} (h : t.Agree t')
include h

theorem declaration?_eq (name : String) (uri : Option String) :
    t.declaration? name uri = t'.declaration? name uri := by
  rw [declaration?, symbol?, h.lookup_eq, declaration?, symbol?]

theorem function?_eq (name : String) (uri : Option String) :
    t.function? name uri = t'.function? name uri := by
  rw [function?, symbol?, h.lookup_eq, function?, symbol?]

theorem namespaceOf?_eq (name : String) : t.namespaceOf? name = t'.namespaceOf? name := by
  rw [namespaceOf?, namespaceOf?, h.imports_eq, h.module_eq]

end SymbolTable.Agree

/-! ## extensional checks -/

namespace Check

/-- The check answers the same when the same is known of every name. -/
def Extensional (c : Check) : Prop :=
  ∀ (unit : String) (t t' : SymbolTable) (issues : List Issue) (event : Event)
    (memory : c.Memory), t.Agree t' →
    c.step ⟨unit, t, issues⟩ event memory = c.step ⟨unit, t', issues⟩ event memory

/-- A check that looks at nodes is extensional when what it finds at a node is the same. -/
theorem extensional_onEnter {find : Context → Node → List Finding}
    (h : ∀ (unit : String) (t t' : SymbolTable) (issues : List Issue) (n : Node), t.Agree t' →
      find ⟨unit, t, issues⟩ n = find ⟨unit, t', issues⟩ n) : (onEnter find).Extensional := by
  intro unit t t' issues event memory hagree
  cases event with
  | enter n => simp only [onEnter, h unit t t' issues n hagree]
  | _ => rfl

/-- A check that never asks for names is extensional. -/
theorem extensional_onEnter_node (find : Node → List Finding) :
    (onEnter fun _ n => find n).Extensional :=
  extensional_onEnter fun _ _ _ _ _ _ => rfl

theorem extensional_onReport (find : ProblemLog → List Finding) :
    (onReport fun _ log => find log).Extensional := by
  intro unit t t' issues event memory _
  cases event <;> rfl

end Check

namespace Rules

theorem extensional_predicateCheck (find : PredicateDepth → Node → List Finding) :
    (predicateCheck find).Extensional := fun _ _ _ _ _ _ _ => rfl

theorem isBoolean_congr {t t' : SymbolTable} (h : t.Agree t') (condition : Node) :
    isBoolean t condition = isBoolean t' condition := by
  have hfunction : givesBoolean t = givesBoolean t' := by
    funext name
    rw [givesBoolean, givesBoolean, h.namespaceOf?_eq, h.function?_eq]
  have hvariable : holdsBoolean t = holdsBoolean t' := by
    funext name
    rw [holdsBoolean, holdsBoolean, h.namespaceOf?_eq, h.declaration?_eq]
  rw [isBoolean, isBoolean, hfunction, hvariable]

/-- Whether a condition is a boolean is decided by look-ups. -/
theorem extensional_booleanConditionCheck : booleanConditionCheck.Extensional := by
  apply Check.extensional_onEnter
  intro unit t t' issues n hagree
  simp only [isBoolean_congr hagree]

/-- Which function is called is decided by the imports and the module. -/
theorem extensional_logCallCheck : logCallCheck.Extensional := by
  apply Check.extensional_onEnter
  intro unit t t' issues n hagree
  have hcalled : logFunction.isCalledBy t n = logFunction.isCalledBy t' n := by
    simp only [ProhibitedFunction.isCalledBy, hagree.namespaceOf?_eq]
  simp only [hcalled]

theorem extensional_functionMappingCheck : functionMappingCheck.Extensional :=
  fun _ _ _ _ _ _ _ => rfl

theorem extensional_versionCheck : versionCheck.Extensional := fun _ _ _ _ _ _ _ => rfl

end Rules

namespace Registry

/-- **The checks of the standard rules** see no more of the names than look-ups,
the imports and the module tell. -/
theorem extensional_of_mem_standardRules {rule : Rule} (h : rule ∈ standardRules)
    (config : Config) : (rule.check config).Extensional := by
  simp only [standardRules, List.mem_cons, List.not_mem_nil, or_false] at h
  rcases h with rfl | rfl | rfl | rfl | rfl | rfl | rfl | rfl | rfl | rfl | rfl | rfl | rfl | rfl
  · exact Check.extensional_onEnter_node _
  · exact Rules.extensional_booleanConditionCheck
  · exact Rules.extensional_functionMappingCheck
  · exact Rules.extensional_predicateCheck _
  · exact Check.extensional_onEnter_node _
  · exact Check.extensional_onReport _
  · exact Check.extensional_onEnter_node _
  · exact Check.extensional_onEnter_node _
  · exact Check.extensional_onEnter_node _
  · exact Check.extensional_onEnter_node _
  · exact Rules.extensional_predicateCheck _
  · exact Check.extensional_onEnter_node _
  · exact Rules.extensional_versionCheck
  · exact Rules.extensional_logCallCheck

/-- No two standard rules have the same key, so that the catalogue has them all. -/
theorem nodup_keys_standardRules : (standardRules.map (·.info.key)).Nodup := by decide

theorem values_standard : standard.rules.values = standardRules := rfl

/-- The active rules are the standard rules that the settings make active, in their order. -/
theorem eq_filter_of_active {config : Config} {rules : List Rule}
    (h : standard.active config = .ok rules) :
    rules = standardRules.filter fun rule => isActive config rule.info := by
  rw [active, values_standard] at h
  split at h
  · contradiction
  · exact (Except.ok.inj h).symm

end Registry

/-! ## runs that agree -/

section

variable {ρ : Type} [Resolver ρ]

/-- Extensional checks answer the same, and they stay extensional. -/
theorem deliver_congr (unit : String) {t t' : SymbolTable} (hagree : t.Agree t') (event : Event)
    {checks : List Check} (hchecks : ∀ c ∈ checks, c.Extensional) (log : IssueLog) :
    deliver unit t event checks log = deliver unit t' event checks log ∧
      ∀ after log', deliver unit t event checks log = some (after, log') →
        ∀ c ∈ after, c.Extensional := by
  induction checks generalizing log with
  | nil =>
      constructor
      · rfl
      · intro after log' h
        cases h
        simp
  | cons check checks ih =>
      have hcheck := hchecks check List.mem_cons_self
      have hrest := ih fun c hc => hchecks c (List.mem_cons_of_mem check hc)
      rw [deliver, deliver, hcheck unit t t' log.issues event check.memory hagree]
      cases check.step ⟨unit, t', log.issues⟩ event check.memory with
      | none => exact ⟨rfl, fun _ _ h => by contradiction⟩
      | some result =>
          obtain ⟨memory, findings⟩ := result
          obtain ⟨heq, hafter⟩ := hrest (log.createAll findings)
          dsimp only
          rw [← heq]
          cases hdeliver : deliver unit t event checks (log.createAll findings) with
          | none => exact ⟨rfl, fun _ _ h => by contradiction⟩
          | some result =>
              constructor
              · rfl
              · intro after log' h c hc
                cases h
                rcases List.mem_cons.1 hc with rfl | hc
                · exact hcheck
                · exact hafter result.1 result.2 hdeliver c hc

/-- **Two runs** whose tables agree after each event find the same issues, or both
end in a crash. -/
theorem runEvents_congr {unit : String} {r r' : ρ} {checks : List Check}
    (hchecks : ∀ c ∈ checks, c.Extensional) (log : IssueLog) {events : List Event}
    (hagree : ∀ before after, events = before ++ after → before ≠ [] →
      (Resolver.symbols (before.foldl (fun r event => Resolver.on event r) r)).Agree
        (Resolver.symbols (before.foldl (fun r event => Resolver.on event r) r'))) :
    (runEvents unit r checks log events).2 = (runEvents unit r' checks log events).2 := by
  induction events generalizing r r' checks log with
  | nil => rfl
  | cons event events ih =>
      obtain ⟨heq, hafter⟩ := deliver_congr unit
        (hagree [event] events rfl (List.cons_ne_nil _ _)) event hchecks log
      simp only [List.foldl_cons, List.foldl_nil] at heq hafter
      rw [runEvents, runEvents]
      rw [← heq]
      cases hdeliver : deliver unit (Resolver.symbols (Resolver.on event r)) event checks log with
      | none => rfl
      | some result =>
          refine ih (hafter result.1 result.2 hdeliver) result.2 ?_
          intro before after hevents _
          exact hagree (event :: before) after (by rw [hevents, List.cons_append])
            (List.cons_ne_nil _ _)

end

end QueryAudit
