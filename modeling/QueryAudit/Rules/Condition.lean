import QueryAudit.Rules.Rule

/-!
# QueryAudit.Rules.Condition

The rule that the condition of an if expression is a boolean by its form or by
the declared types, and not by the effective boolean value of a sequence.
-/

namespace QueryAudit.Rules

/-- The rule that conditions are boolean expressions. -/
def booleanCondition : RuleInfo where
  key := "EffectiveBoolean"
  name := "Effective Boolean in Conditional Predicate"
  priority := .minor
  description := "Use an explicit boolean expression in if conditions instead of relying on "
    ++ "the effective boolean value of a sequence."
  enabledByDefault := true

/-- The type of booleans as declarations state it. -/
def booleanType : String := "xs:boolean"

/-- A function whose name ends with one of these gives a boolean. -/
def booleanFunctions : List String :=
  ["exists", "empty", "contains", "starts-with", "ends-with", "boolean", "not", "true", "false",
    "matches"]

/-- The kinds of expressions that always give a boolean. -/
def booleanKinds : List String := [Kind.comparison, Kind.castable, Kind.treat, Kind.instanceOf]

/-- The name of the function that is called in a path of one step. -/
def singleCall? (path : Node) : Option String :=
  if (path.childrenByKind Kind.stepExpr).length = 1 then
    (path.find? Kind.functionCall).bind Node.functionName?
  else none

/-- Whether a function gives a boolean, by its declaration or by its name. -/
def givesBoolean (symbols : SymbolTable) (name : String) : Bool :=
  (symbols.function? (localName name) (symbols.namespaceOf? name)).any
      (·.declaration.hasType booleanType)
    || endsWithAny name booleanFunctions

/-- The name in a reference to a variable. -/
def referenceName (reference : Node) : String :=
  match reference.childByKind? Kind.qName with
  | some child => child.text
  | none => reference.nameText?.getD reference.text

/-- Whether a referenced variable is declared as a boolean. -/
def holdsBoolean (symbols : SymbolTable) (name : String) : Bool :=
  (symbols.declaration? (localName name) (symbols.namespaceOf? name)).any (·.hasType booleanType)

/-- Whether a condition is known to be a boolean. -/
def isBoolean (symbols : SymbolTable) (condition : Node) : Bool :=
  let path := condition.find? Kind.relativePathExpr
  (path.bind singleCall?).any (givesBoolean symbols)
    || booleanKinds.any condition.contains
    || (path.bind (·.find? Kind.varRef)).any fun reference =>
      holdsBoolean symbols (referenceName reference)

/-- The line to blame for a condition: that of the first variable of its first
path, or else its own. -/
def blamedLine (condition : Node) : UInt32 :=
  match (condition.find? Kind.relativePathExpr).bind (·.find? Kind.varRef) with
  | some reference => reference.line
  | none => condition.line

/-- Every condition is known to be a boolean. -/
def booleanConditionCheck : Check := .onEnter fun context n =>
  if n.is Kind.ifExpr then
    match n.nodeByField? Field.condition with
    | none => []
    | some condition =>
      if isBoolean context.symbols condition then []
      else
        [booleanCondition.finding (blamedLine condition)
          "The if condition is not a boolean expression, make the test explicit"]
  else []

end QueryAudit.Rules
