import QueryAudit.Rules.Rule

/-!
# QueryAudit.Rules.Typing

The rules that ask for declared types: of the variables of FLWOR expressions, of
the parameters and results of functions, and of the variables of modules.
-/

namespace QueryAudit.Rules

/-! ## variables of FLWOR expressions -/

/-- The rule that for and let variables state their type. -/
def flworTyping : RuleInfo where
  key := "StrongTypingInFLWOR"
  name := "Use Strong Typing in FLWOR Expressions"
  priority := .minor
  description := "Declare the type of for and let variables to help the optimizer and to "
    ++ "catch type errors early."
  enabledByDefault := true

/-- A for or let variable has a type. -/
def flworTypingCheck : Check := .onEnter fun _ n =>
  if (n.is Kind.forVar || n.is Kind.letVar) && !n.hasField Field.type then
    [flworTyping.finding n.line ("Declare the type of $" ++ n.nameText?.getD "")]
  else []

/-! ## functions -/

/-- The rule that functions and parameters state their type. -/
def functionTyping : RuleInfo where
  key := "StrongTypingInFunctionDeclaration"
  name := "Use Strong Typing in Function Declarations"
  priority := .critical
  description := "Declare the type of every function parameter and the return type of every "
    ++ "function."
  enabledByDefault := true

/-- Every parameter of a function has a type, and so has its result. -/
def functionTypingCheck : Check := .onEnter fun _ n =>
  if n.is Kind.functionDecl then
    let function := n.functionName?.getD ""
    let params := n.params.filter fun param => !param.hasField Field.type
    params.map (fun param =>
        functionTyping.finding param.line
          ("Declare the type of parameter $" ++ param.nameText?.getD "" ++ " of " ++ function
            ++ "()"))
      ++ if n.hasField Field.type then []
        else [functionTyping.finding n.line ("Declare the return type of " ++ function ++ "()")]
  else []

/-! ## variables of modules -/

/-- The rule that variables of a module state their type. -/
def variableTyping : RuleInfo where
  key := "StrongTypingInModuleVariables"
  name := "Use Strong Typing when Declaring Module Variable"
  priority := .critical
  description := "Declare the type of every module variable."
  enabledByDefault := true

/-- A variable of a module has a type. -/
def variableTypingCheck : Check := .onEnter fun _ n =>
  if n.is Kind.varDecl && !n.hasField Field.type then
    [variableTyping.finding n.line
      ("Declare the type of module variable $" ++ n.nameText?.getD "")]
  else []

end QueryAudit.Rules
