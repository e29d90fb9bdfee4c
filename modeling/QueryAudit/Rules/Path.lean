import QueryAudit.Rules.Rule

/-!
# QueryAudit.Rules.Path

The rules about the steps of paths and about the order of results.
-/

namespace QueryAudit.Rules

/-- A breach of a rule at every child of a node with the given text, each on the
line of the child. -/
def violations (rule : RuleInfo) (n : Node) (text message : String) : List Finding :=
  (n.children.elements.filter (·.text == text)).map fun child => rule.finding child.line message

/-! ## descendant steps -/

/-- The rule against steps to all descendants. -/
def descendantStep : RuleInfo where
  key := "XpathDescendantSteps"
  name := "Avoid Using '//' in XPath"
  priority := .minor
  description := "Descendant steps traverse the whole subtree. Use explicit child steps "
    ++ "where the structure is known."
  enabledByDefault := true

/-- No path steps to descendants. -/
def descendantStepCheck : Check := .onEnter fun _ n =>
  if n.is Kind.relativePathExpr then
    violations descendantStep n "//" "Avoid descendant steps ('//') in XPath"
  else []

/-! ## text steps -/

/-- The rule against steps to text nodes. -/
def textStep : RuleInfo where
  key := "XPathTextSteps"
  name := "Avoid XPath Text Steps"
  priority := .minor
  description := "Selecting text() nodes is fragile with mixed content. Use the string value "
    ++ "of the element instead."
  enabledByDefault := true

/-- No step selects text nodes. -/
def textStepCheck : Check := .onEnter fun _ n =>
  if n.is Kind.stepExpr then
    match n.findPath? [Kind.nodeTest, Kind.kindTest, Kind.textTest] with
    | none => []
    | some test =>
      [textStep.finding test.line "Avoid text() steps, use the string value instead"]
  else []

/-! ## order -/

/-- The rule on the order of results. -/
def orderRange : RuleInfo where
  key := "OrderByRange"
  name := "Range Evaluation in Order By Clause"
  priority := .info
  description := "Order by clauses should use range indexes where possible. Make sure the "
    ++ "ordered expression is backed by a range index."
  enabledByDefault := true

/-- Every order by clause is worth a look. -/
def orderRangeCheck : Check := .onEnter fun _ n =>
  if n.is Kind.orderSpec then
    [orderRange.finding n.line "Make sure the order by expression uses a range index"]
  else []

end QueryAudit.Rules
