import QueryAudit.Proofs.Resolver.Local
import QueryAudit.Proofs.Tree.Search
import QueryAudit.Proofs.Walk.Raised
import QueryAudit.Rules.Condition

/-!
# QueryAudit.Proofs.Rules.Condition

What the rule on conditions finds at an if expression whose condition refers to a variable.

* `RefersTo.isBoolean_eq` — the variable is one reason among others;
* `RefersTo.getElem?_findings` — what the check finds when a walk comes to the expression.
-/

namespace QueryAudit

/-- What is known about names after an event of a unit. -/
def SourceUnit.symbolsAfter {ρ : Type} [Resolver ρ] (u : SourceUnit) (r : ρ) (k : Nat) :
    SymbolTable :=
  Resolver.symbols ((u.events.take (k + 1)).foldl (fun r event => Resolver.on event r) r)

namespace Rules

/-- What the check finds when a walk comes to an if expression. -/
theorem getElem?_findings_condition {u : SourceUnit} {k : Nat} {n condition : Node}
    (hk : u.events[k]? = some (.enter n)) (hkind : n.kind = Kind.ifExpr)
    (hcondition : n.nodeByField? Field.condition = some condition) {ρ : Type} [Resolver ρ]
    (r : ρ) : (booleanConditionCheck.findings u.name (views r u.events))[k]?
      = some (if isBoolean (u.symbolsAfter r k) condition then []
          else [booleanCondition.finding (blamedLine condition)
            "The if condition is not a boolean expression, make the test explicit"]) := by
  have his : n.is Kind.ifExpr = true := Node.is_eq_true_iff.2 hkind
  rw [booleanConditionCheck, Check.findings_onEnter, List.getElem?_map, getElem?_views, hk]
  simp only [Option.map_some, his, if_true, hcondition]
  rfl

/-- Whether there is another reason than its variable why a condition is a boolean: a call
that gives one, or an expression that always does. -/
def isBooleanOtherwise (symbols : SymbolTable) (condition : Node) : Bool :=
  ((condition.find? Kind.relativePathExpr).bind singleCall?).any (givesBoolean symbols)
    || booleanKinds.any condition.contains

/-- An if expression with a condition whose first path has a variable, the first of it. -/
structure RefersTo (n condition path reference : Node) : Prop where
  kind_eq : n.kind = Kind.ifExpr
  condition_eq : n.nodeByField? Field.condition = some condition
  path_eq : condition.preorder.find? (·.is Kind.relativePathExpr) = some path
  reference_eq : path.preorder.find? (·.is Kind.varRef) = some reference

namespace RefersTo

variable {n condition path reference : Node} (h : RefersTo n condition path reference)
include h

theorem find?_path : condition.find? Kind.relativePathExpr = some path := by
  rw [Node.find?_eq_find?_preorder, h.path_eq]

theorem find?_reference : path.find? Kind.varRef = some reference := by
  rw [Node.find?_eq_find?_preorder, h.reference_eq]

/-- **The condition** is a boolean for another reason, or because its variable holds one. -/
theorem isBoolean_eq (symbols : SymbolTable) :
    isBoolean symbols condition
      = (isBooleanOtherwise symbols condition || holdsBoolean symbols (referenceName reference)) := by
  rw [isBoolean, isBooleanOtherwise, h.find?_path]
  simp [h.find?_reference]

theorem blamedLine_eq : blamedLine condition = reference.line := by
  rw [blamedLine, h.find?_path, Option.bind_some, h.find?_reference]

/-- What the check finds when a walk comes to the expression. -/
theorem getElem?_findings {u : SourceUnit} {k : Nat} (hk : u.events[k]? = some (.enter n))
    {ρ : Type} [Resolver ρ] (r : ρ) :
    (booleanConditionCheck.findings u.name (views r u.events))[k]?
      = some (if isBoolean (u.symbolsAfter r k) condition then []
          else [booleanCondition.finding reference.line
            "The if condition is not a boolean expression, make the test explicit"]) := by
  rw [getElem?_findings_condition hk h.kind_eq h.condition_eq, h.blamedLine_eq]

end RefersTo

end Rules

end QueryAudit
