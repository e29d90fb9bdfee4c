import QueryAudit.Proofs.Tree.Text
import QueryAudit.Registry

/-!
# QueryAudit.Proofs.Rules.Message

The messages of the standard rules.  Each is a fixed text, a message of the parser, or a
fixed text around a name that the node gives, so that a message has a line feed only if
the tree or the parser's messages have one.

* `Check.isUnbroken_onEnter`, `Rules.isUnbroken_predicateCheck` — checks of a common form;
* `Registry.isUnbroken_of_mem_standardRules` — the check of every standard rule.
-/

namespace QueryAudit

/-- A text without a line feed. -/
def Unbroken (s : String) : Prop := '\n' ∉ s.toList

instance (s : String) : Decidable (Unbroken s) := inferInstanceAs (Decidable ('\n' ∉ s.toList))

@[simp] theorem unbroken_append {s t : String} : Unbroken (s ++ t) ↔ Unbroken s ∧ Unbroken t := by
  simp [Unbroken]

/-- A part of an unbroken text is unbroken. -/
theorem Unbroken.of_isInfix {s t : String} (h : Unbroken t) (hpart : s.toList <:+: t.toList) :
    Unbroken s :=
  fun hs => h (hpart.subset hs)

/-- The texts of an issue are unbroken. -/
structure Issue.IsUnbroken (i : Issue) : Prop where
  rule : Unbroken i.rule
  message : Unbroken i.message

/-- What a check quotes at an event is unbroken: the text of a node that the walk comes to, or
the messages of the parser. -/
def Event.IsUnbroken : Event → Prop
  | .enter n => Unbroken n.text
  | .report log => ∀ p ∈ log.problems, Unbroken p.message
  | _ => True

/-- A check whose issues are unbroken as long as what it quotes is. -/
def Check.IsUnbroken (c : Check) : Prop :=
  ∀ (context : Context) (event : Event) (memory : c.Memory) (result : c.Memory × List Finding),
    event.IsUnbroken → c.step context event memory = some result →
      ∀ f ∈ result.2, f.toIssue.IsUnbroken

theorem RuleInfo.isUnbroken_finding {rule : RuleInfo} {line : UInt32} {message : String}
    (hrule : Unbroken rule.key) (hmessage : Unbroken message) :
    (rule.finding line message).toIssue.IsUnbroken := ⟨hrule, hmessage⟩

/-! ## names in messages -/

namespace Node

variable {n : Node} (h : Unbroken n.text)
include h

theorem unbroken_nameText : Unbroken (n.nameText?.getD "") := by
  cases hname : n.nameText? with
  | none => decide
  | some s => exact h.of_isInfix (isInfix_of_nameText? hname)

theorem unbroken_functionName : Unbroken (n.functionName?.getD "") := by
  cases hname : n.functionName? with
  | none => decide
  | some s => exact h.of_isInfix (isInfix_of_functionName? hname)

end Node

/-! ## checks -/

namespace Check

theorem isUnbroken_onEnter {find : Context → Node → List Finding}
    (h : ∀ context n, Unbroken n.text → ∀ f ∈ find context n, f.toIssue.IsUnbroken) :
    (onEnter find).IsUnbroken := by
  intro context event memory result hevent hstep f hf
  cases event with
  | enter n =>
      cases hstep
      exact h context n hevent f hf
  | _ =>
      cases hstep
      exact absurd hf List.not_mem_nil

end Check

namespace Rules

theorem isUnbroken_predicateCheck {find : PredicateDepth → Node → List Finding}
    (h : ∀ depth n, Unbroken n.text → ∀ f ∈ find depth n, f.toIssue.IsUnbroken) :
    (predicateCheck find).IsUnbroken := by
  intro context event memory result hevent hstep f hf
  cases event with
  | enter n =>
      cases hstep
      exact h memory n hevent f hf
  | _ =>
      cases hstep
      exact absurd hf List.not_mem_nil

theorem isUnbroken_dynamicCallCheck : dynamicCallCheck.IsUnbroken := by
  refine Check.isUnbroken_onEnter fun context n h f hf => ?_
  have hname := Node.unbroken_functionName h
  obtain ⟨name, hcalled, rfl⟩ : ∃ name, n.functionName? = some name ∧
      f = dynamicCall.finding n.line ("Avoid dynamic evaluation with " ++ name ++ "()") := by grind
  rw [hcalled] at hname
  refine RuleInfo.isUnbroken_finding (by decide) ?_
  simpa +decide using hname

theorem isUnbroken_booleanConditionCheck : booleanConditionCheck.IsUnbroken := by
  refine Check.isUnbroken_onEnter fun context n _ f hf => ?_
  obtain ⟨line, rfl⟩ : ∃ line, f = booleanCondition.finding line
    "The if condition is not a boolean expression, make the test explicit" := by grind
  exact RuleInfo.isUnbroken_finding (by decide) (by decide)

theorem isUnbroken_functionMappingCheck : functionMappingCheck.IsUnbroken := by
  intro context event memory result _ hstep f hf
  obtain ⟨line, rfl⟩ : ∃ line, f = functionMapping.finding line
      "Declare the xdmp:mapping option when using the 1.0-ml dialect" := by
    cases event <;> cases hstep <;> grind
  exact RuleInfo.isUnbroken_finding (by decide) (by decide)

theorem isUnbroken_versionCheck : versionCheck.IsUnbroken := by
  intro context event memory result _ hstep f hf
  obtain ⟨line, rfl | rfl⟩ : ∃ line, f = version.finding line "Declare the XQuery version" ∨
      f = version.finding line ("Avoid the deprecated XQuery version " ++ deprecatedVersion) := by
    cases event <;> cases hstep <;> grind
  · exact RuleInfo.isUnbroken_finding (by decide) (by decide)
  · exact RuleInfo.isUnbroken_finding (by decide) (by decide)

theorem isUnbroken_predicateOperationCheck : predicateOperationCheck.IsUnbroken := by
  refine isUnbroken_predicateCheck fun depth n h f hf => ?_
  have hname := Node.unbroken_functionName h
  obtain rfl | rfl : f = predicateOperation.finding n.line
        "Avoid arithmetic operations in predicates" ∨
      f = predicateOperation.finding n.line
        ("Avoid calling " ++ n.functionName?.getD "" ++ "() in predicates") := by grind
  · exact RuleInfo.isUnbroken_finding (by decide) (by decide)
  · refine RuleInfo.isUnbroken_finding (by decide) ?_
    simpa +decide using hname

theorem isUnbroken_predicatePathCheck : predicatePathCheck.IsUnbroken := by
  refine isUnbroken_predicateCheck fun depth n _ f hf => ?_
  obtain rfl | rfl : f = predicatePath.finding n.line "Avoid nested predicates" ∨
      f = predicatePath.finding n.line "Avoid XPath sub-expressions in predicates" := by grind
  · exact RuleInfo.isUnbroken_finding (by decide) (by decide)
  · exact RuleInfo.isUnbroken_finding (by decide) (by decide)

theorem isUnbroken_orderRangeCheck : orderRangeCheck.IsUnbroken := by
  refine Check.isUnbroken_onEnter fun context n _ f hf => ?_
  obtain rfl : f = orderRange.finding n.line
    "Make sure the order by expression uses a range index" := by grind
  exact RuleInfo.isUnbroken_finding (by decide) (by decide)

/-- The messages of the parser are handed on as they are. -/
theorem isUnbroken_parseProblemCheck (allowed : List String) :
    (parseProblemCheck allowed).IsUnbroken := by
  intro context event memory result hevent hstep f hf
  cases event with
  | report log =>
      cases hstep
      obtain ⟨p, hp, rfl⟩ := List.mem_map.1 hf
      exact RuleInfo.isUnbroken_finding (by decide) (hevent p (List.mem_filter.1 hp).1)
  | _ =>
      cases hstep
      exact absurd hf List.not_mem_nil

theorem isUnbroken_flworTypingCheck : flworTypingCheck.IsUnbroken := by
  refine Check.isUnbroken_onEnter fun context n h f hf => ?_
  have hname := Node.unbroken_nameText h
  obtain rfl : f = flworTyping.finding n.line
    ("Declare the type of $" ++ n.nameText?.getD "") := by grind
  refine RuleInfo.isUnbroken_finding (by decide) ?_
  simpa +decide using hname

theorem isUnbroken_functionTypingCheck : functionTypingCheck.IsUnbroken := by
  refine Check.isUnbroken_onEnter fun context n h f hf => ?_
  have hfunction := Node.unbroken_functionName h
  obtain ⟨param, hparam, rfl⟩ | rfl : (∃ param ∈ n.params, f = functionTyping.finding param.line
        ("Declare the type of parameter $" ++ param.nameText?.getD "" ++ " of "
          ++ n.functionName?.getD "" ++ "()")) ∨
      f = functionTyping.finding n.line
        ("Declare the return type of " ++ n.functionName?.getD "" ++ "()") := by grind
  · have hname := Node.unbroken_nameText (h.of_isInfix (Node.text_isInfix_of_mem_params hparam))
    refine RuleInfo.isUnbroken_finding (by decide) ?_
    simpa +decide using ⟨hname, hfunction⟩
  · refine RuleInfo.isUnbroken_finding (by decide) ?_
    simpa +decide using hfunction

theorem isUnbroken_variableTypingCheck : variableTypingCheck.IsUnbroken := by
  refine Check.isUnbroken_onEnter fun context n h f hf => ?_
  have hname := Node.unbroken_nameText h
  obtain rfl : f = variableTyping.finding n.line
    ("Declare the type of module variable $" ++ n.nameText?.getD "") := by grind
  refine RuleInfo.isUnbroken_finding (by decide) ?_
  simpa +decide using hname

theorem isUnbroken_descendantStepCheck : descendantStepCheck.IsUnbroken := by
  refine Check.isUnbroken_onEnter fun context n _ f hf => ?_
  obtain ⟨line, rfl⟩ : ∃ line, f = descendantStep.finding line
    "Avoid descendant steps ('//') in XPath" := by grind [violations]
  exact RuleInfo.isUnbroken_finding (by decide) (by decide)

theorem isUnbroken_textStepCheck : textStepCheck.IsUnbroken := by
  refine Check.isUnbroken_onEnter fun context n _ f hf => ?_
  obtain ⟨line, rfl⟩ : ∃ line, f = textStep.finding line
    "Avoid text() steps, use the string value instead" := by grind
  exact RuleInfo.isUnbroken_finding (by decide) (by decide)

theorem isUnbroken_logCallCheck : logCallCheck.IsUnbroken := by
  refine Check.isUnbroken_onEnter fun context n _ f hf => ?_
  obtain rfl : f = logCall.finding n.line "Use xdmp:trace() instead of xdmp:log()" := by grind
  exact RuleInfo.isUnbroken_finding (by decide) (by decide)

end Rules

/-- **The standard rules** raise unbroken issues where they quote unbroken texts. -/
theorem Registry.isUnbroken_of_mem_standardRules {rule : Rule} (h : rule ∈ standardRules)
    (config : Config) : (rule.check config).IsUnbroken := by
  simp only [standardRules, List.mem_cons, List.not_mem_nil, or_false] at h
  rcases h with rfl | rfl | rfl | rfl | rfl | rfl | rfl | rfl | rfl | rfl | rfl | rfl | rfl | rfl
  · exact Rules.isUnbroken_dynamicCallCheck
  · exact Rules.isUnbroken_booleanConditionCheck
  · exact Rules.isUnbroken_functionMappingCheck
  · exact Rules.isUnbroken_predicateOperationCheck
  · exact Rules.isUnbroken_orderRangeCheck
  · exact Rules.isUnbroken_parseProblemCheck config.allowedMessages
  · exact Rules.isUnbroken_flworTypingCheck
  · exact Rules.isUnbroken_functionTypingCheck
  · exact Rules.isUnbroken_variableTypingCheck
  · exact Rules.isUnbroken_descendantStepCheck
  · exact Rules.isUnbroken_predicatePathCheck
  · exact Rules.isUnbroken_textStepCheck
  · exact Rules.isUnbroken_versionCheck
  · exact Rules.isUnbroken_logCallCheck

end QueryAudit
