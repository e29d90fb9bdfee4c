import QueryAudit.Proofs.Rules.Extensional
import QueryAudit.Proofs.Walk.Raised

/-!
# QueryAudit.Proofs.Rules.Regular

The checks of the standard rules are regular: they do not crash, they do not look at
the issues that are there, and each raises breaches of its own rule only.

* `regular_onEnter`, `regular_onReport`, `regular_predicateCheck` — what makes a check of
  a common form regular;
* `regular_of_mem_standardRules` — the check of every standard rule is regular.
-/

namespace QueryAudit

namespace Check

/-- A check that looks at nodes is regular when all it finds are breaches of its rule. -/
theorem regular_onEnter {key : String} {find : Context → Node → List Finding}
    (hissues : ∀ (unit : String) (symbols : SymbolTable) (issues issues' : List Issue) (n : Node),
      find ⟨unit, symbols, issues⟩ n = find ⟨unit, symbols, issues'⟩ n)
    (hrule : ∀ context n, ∀ f ∈ find context n, f.rule = key) : (onEnter find).Regular key where
  isSome_step context event memory := by cases event <;> rfl
  step_congr unit symbols issues issues' event memory := by
    cases event with
    | enter n =>
        exact congrArg (fun found => some ((), found)) (hissues unit symbols issues issues' n)
    | _ => rfl
  rule_eq context event memory result h f hf := by
    cases event with
    | enter n =>
        cases h
        exact hrule context n f hf
    | _ =>
        cases h
        simp at hf

theorem regular_onReport {key : String} {find : Context → ProblemLog → List Finding}
    (hissues : ∀ (unit : String) (symbols : SymbolTable) (issues issues' : List Issue)
      (log : ProblemLog), find ⟨unit, symbols, issues⟩ log = find ⟨unit, symbols, issues'⟩ log)
    (hrule : ∀ context log, ∀ f ∈ find context log, f.rule = key) :
    (onReport find).Regular key where
  isSome_step context event memory := by cases event <;> rfl
  step_congr unit symbols issues issues' event memory := by
    cases event with
    | report log =>
        exact congrArg (fun found => some ((), found)) (hissues unit symbols issues issues' log)
    | _ => rfl
  rule_eq context event memory result h f hf := by
    cases event with
    | report log =>
        cases h
        exact hrule context log f hf
    | _ =>
        cases h
        simp at hf

end Check

namespace Rules

theorem regular_predicateCheck {key : String} {find : PredicateDepth → Node → List Finding}
    (hrule : ∀ depth n, ∀ f ∈ find depth n, f.rule = key) : (predicateCheck find).Regular key where
  isSome_step context event memory := by cases event <;> rfl
  step_congr unit symbols issues issues' event memory := rfl
  rule_eq context event memory result h f hf := by
    cases event with
    | enter n =>
        cases h
        exact hrule memory n f hf
    | _ =>
        cases h
        simp at hf

theorem regular_dynamicCallCheck : dynamicCallCheck.Regular dynamicCall.key := by
  refine Check.regular_onEnter (fun _ _ _ _ _ => rfl) fun context n f hf => ?_
  grind [RuleInfo.finding]

theorem regular_booleanConditionCheck : booleanConditionCheck.Regular booleanCondition.key := by
  refine Check.regular_onEnter (fun _ _ _ _ _ => rfl) fun context n f hf => ?_
  grind [RuleInfo.finding]

theorem regular_functionMappingCheck : functionMappingCheck.Regular functionMapping.key where
  isSome_step context event memory := by cases event <;> rfl
  step_congr unit symbols issues issues' event memory := rfl
  rule_eq context event memory result h f hf := by
    cases event <;> cases h <;> grind [RuleInfo.finding]

theorem regular_versionCheck : versionCheck.Regular version.key where
  isSome_step context event memory := by cases event <;> rfl
  step_congr unit symbols issues issues' event memory := rfl
  rule_eq context event memory result h f hf := by
    cases event <;> cases h <;> grind [RuleInfo.finding]

theorem regular_predicateOperationCheck :
    predicateOperationCheck.Regular predicateOperation.key := by
  refine regular_predicateCheck fun depth n f hf => ?_
  grind [RuleInfo.finding]

theorem regular_predicatePathCheck : predicatePathCheck.Regular predicatePath.key := by
  refine regular_predicateCheck fun depth n f hf => ?_
  grind [RuleInfo.finding]

theorem regular_orderRangeCheck : orderRangeCheck.Regular orderRange.key := by
  refine Check.regular_onEnter (fun _ _ _ _ _ => rfl) fun context n f hf => ?_
  grind [RuleInfo.finding]

theorem regular_parseProblemCheck (allowed : List String) :
    (parseProblemCheck allowed).Regular parseProblem.key := by
  refine Check.regular_onReport (fun _ _ _ _ _ => rfl) fun context log f hf => ?_
  grind [RuleInfo.finding]

theorem regular_flworTypingCheck : flworTypingCheck.Regular flworTyping.key := by
  refine Check.regular_onEnter (fun _ _ _ _ _ => rfl) fun context n f hf => ?_
  grind [RuleInfo.finding]

theorem regular_functionTypingCheck : functionTypingCheck.Regular functionTyping.key := by
  refine Check.regular_onEnter (fun _ _ _ _ _ => rfl) fun context n f hf => ?_
  grind [RuleInfo.finding]

theorem regular_variableTypingCheck : variableTypingCheck.Regular variableTyping.key := by
  refine Check.regular_onEnter (fun _ _ _ _ _ => rfl) fun context n f hf => ?_
  grind [RuleInfo.finding]

theorem regular_descendantStepCheck : descendantStepCheck.Regular descendantStep.key := by
  refine Check.regular_onEnter (fun _ _ _ _ _ => rfl) fun context n f hf => ?_
  grind [RuleInfo.finding, violations]

theorem regular_textStepCheck : textStepCheck.Regular textStep.key := by
  refine Check.regular_onEnter (fun _ _ _ _ _ => rfl) fun context n f hf => ?_
  grind [RuleInfo.finding]

theorem regular_logCallCheck : logCallCheck.Regular logCall.key := by
  refine Check.regular_onEnter (fun _ _ _ _ _ => rfl) fun context n f hf => ?_
  grind [RuleInfo.finding]

end Rules

namespace Registry

theorem regular_of_mem_standardRules {rule : Rule} (h : rule ∈ standardRules) (config : Config) :
    (rule.check config).Regular rule.info.key := by
  simp only [standardRules, List.mem_cons, List.not_mem_nil, or_false] at h
  rcases h with rfl | rfl | rfl | rfl | rfl | rfl | rfl | rfl | rfl | rfl | rfl | rfl | rfl | rfl
  · exact Rules.regular_dynamicCallCheck
  · exact Rules.regular_booleanConditionCheck
  · exact Rules.regular_functionMappingCheck
  · exact Rules.regular_predicateOperationCheck
  · exact Rules.regular_orderRangeCheck
  · exact Rules.regular_parseProblemCheck config.allowedMessages
  · exact Rules.regular_flworTypingCheck
  · exact Rules.regular_functionTypingCheck
  · exact Rules.regular_variableTypingCheck
  · exact Rules.regular_descendantStepCheck
  · exact Rules.regular_predicatePathCheck
  · exact Rules.regular_textStepCheck
  · exact Rules.regular_versionCheck
  · exact Rules.regular_logCallCheck

end Registry

end QueryAudit
