import QueryAudit.Rules.Rule

/-!
# QueryAudit.Rules.Predicate

The rules about what stands inside a predicate.  Both count how many predicates
are open.
-/

namespace QueryAudit.Rules

/-- How many predicates are open. -/
structure PredicateDepth where
  level : Nat
deriving DecidableEq, Repr

namespace PredicateDepth

/-- Outside of all predicates. -/
def zero : PredicateDepth := ⟨0⟩

/-- A predicate begins. -/
def enter (d : PredicateDepth) : PredicateDepth := ⟨d.level + 1⟩

/-- One predicate less is open; the count stays at zero. -/
def exit (d : PredicateDepth) : PredicateDepth := ⟨d.level - 1⟩

/-- Whether any predicate is open. -/
def inPredicate (d : PredicateDepth) : Bool := 0 < d.level

end PredicateDepth

/-- A check that knows how many predicates are open.  It looks at a node before
the node itself is counted. -/
def predicateCheck (find : PredicateDepth → Node → List Finding) : Check where
  Memory := PredicateDepth
  memory := .zero
  step _ event depth :=
    match event with
    | .enterSource _ => some (.zero, [])
    | .enter n => some (if n.is Kind.predicate then depth.enter else depth, find depth n)
    | .exit n => some (if n.is Kind.predicate then depth.exit else depth, [])
    | _ => some (depth, [])

/-! ## operations -/

/-- The rule against arithmetic and costly calls in predicates. -/
def predicateOperation : RuleInfo where
  key := "OperationsInPredicate"
  name := "Avoid Operations in Predicates"
  priority := .major
  description := "Arithmetic and function calls inside a predicate are evaluated for every "
    ++ "candidate node. Compute the value once and bind it to a variable."
  enabledByDefault := true

/-- A function whose name ends with one of these may be called in a predicate. -/
def cheapFunctions : List String :=
  ["data", "last", "not", "exists", "xs:integer", "string", "xs:decimal", "xs:double", "xs:float",
    "xs:date", "xs:dateTime", "xs:time", "xs:dayTimeDuration", "xs:yearMonthDuration",
    "xs:duration"]

/-- Inside a predicate there is no arithmetic and no call of an expensive function. -/
def predicateOperationCheck : Check := predicateCheck fun depth n =>
  if depth.inPredicate then
    if n.is Kind.add || n.is Kind.mult then
      [predicateOperation.finding n.line "Avoid arithmetic operations in predicates"]
    else if n.is Kind.functionCall && !endsWithAny (n.functionName?.getD "") cheapFunctions then
      [predicateOperation.finding n.line
        ("Avoid calling " ++ n.functionName?.getD "" ++ "() in predicates")]
    else []
  else []

/-! ## paths and predicates -/

/-- The rule against paths in predicates. -/
def predicatePath : RuleInfo where
  key := "XPathSubExpressionsInPredicate"
  name := "Avoid XPath Sub-Expressions in Predicates"
  priority := .minor
  description := "Path expressions and nested predicates inside a predicate are evaluated for "
    ++ "every candidate node. Bind them to a variable first."
  enabledByDefault := true

/-- Inside a predicate there is no other predicate, and no path that is spelled
with a token of its own. -/
def predicatePathCheck : Check := predicateCheck fun depth n =>
  if depth.inPredicate then
    if n.is Kind.predicate then [predicatePath.finding n.line "Avoid nested predicates"]
    else if n.is Kind.relativePathExpr && !n.tokens.isEmpty then
      [predicatePath.finding n.line "Avoid XPath sub-expressions in predicates"]
    else []
  else []

end QueryAudit.Rules
