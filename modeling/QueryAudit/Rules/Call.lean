import QueryAudit.Rules.Rule

/-!
# QueryAudit.Rules.Call

The rules about calls of particular functions.
-/

namespace QueryAudit.Rules

/-! ## dynamic evaluation -/

/-- The rule against code that is put together while the query runs. -/
def dynamicCall : RuleInfo where
  key := "DynamicFunction"
  name := "Dynamic Function Usage (MarkLogic)"
  priority := .major
  description := "Avoid xdmp:eval() and xdmp:value() where possible. Use xdmp:invoke(), "
    ++ "xdmp:unpath() or function values to evaluate code dynamically."
  enabledByDefault := true

/-- The functions that evaluate code given as text. -/
def evaluators : List String := ["xdmp:eval", "xdmp:value"]

/-- Code is not evaluated from text. -/
def dynamicCallCheck : Check := .onEnter fun _ n =>
  if n.is Kind.functionCall then
    match n.functionName? with
    | none => []
    | some name =>
      if evaluators.contains name then
        [dynamicCall.finding n.line ("Avoid dynamic evaluation with " ++ name ++ "()")]
      else []
  else []

/-! ## prohibited functions -/

/-- A function that is not to be called.  A call is one of it when the local name
is that of the function, and the qualifier is the given one or is bound to the
given namespace. -/
structure ProhibitedFunction where
  qualifier : Option String
  uri : Option String
  name : String
deriving DecidableEq, Repr

/-- The qualifier and the local name of a called function; without a colon the
qualifier is empty. -/
def splitCallName (name : String) : String × String :=
  match cut ':' name.toList with
  | some (qualifier, name) => (String.ofList qualifier, String.ofList name)
  | none => ("", name)

/-- Whether a call is one of the function, as far as names are known. -/
def ProhibitedFunction.isCalledBy (f : ProhibitedFunction) (symbols : SymbolTable) (call : Node) :
    Bool :=
  match call.functionName? with
  | none => false
  | some name =>
    let (qualifier, name) := splitCallName name
    name == f.name
      && (f.qualifier == some qualifier
        || (!qualifier.isEmpty && f.uri.isSome && symbols.namespaceOf? qualifier == f.uri))

/-- The rule against calls that write to the log. -/
def logCall : RuleInfo where
  key := "LogCheck"
  name := "Log Function Usage (MarkLogic)"
  priority := .minor
  description := "Favor xdmp:trace() over xdmp:log() so logging can be switched on and off "
    ++ "per trace event."
  enabledByDefault := false

/-- The function that writes to the log. -/
def logFunction : ProhibitedFunction := ⟨some "xdmp", none, "log"⟩

/-- Nothing is written to the log. -/
def logCallCheck : Check := .onEnter fun context n =>
  if n.is Kind.functionCall && logFunction.isCalledBy context.symbols n then
    [logCall.finding n.line "Use xdmp:trace() instead of xdmp:log()"]
  else []

end QueryAudit.Rules
