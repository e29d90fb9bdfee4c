import QueryAudit.Rules.Rule

/-!
# QueryAudit.Rules.Transaction

The rules about the prolog of a module transaction.  Each check remembers what
it has met in the transaction that is being walked.
-/

namespace QueryAudit.Rules

/-! ## function mapping -/

/-- The rule that transactions decide on function mapping. -/
def functionMapping : RuleInfo where
  key := "FunctionMapping"
  name := "Function Mapping Usage (MarkLogic)"
  priority := .major
  description := "Make sure function mapping is used intentionally. Disable it with "
    ++ "'declare option xdmp:mapping \"false\";' or declare it explicitly with "
    ++ "'declare option xdmp:mapping \"true\";'."
  enabledByDefault := true

/-- What has been met of the mapping option in a transaction. -/
structure MappingMemory where
  /-- The dialect of the transaction maps functions. -/
  capable : Bool
  /-- The option is declared. -/
  declared : Bool
  /-- The line of the transaction. -/
  line : UInt32
deriving DecidableEq, Repr

/-- What a node says about the mapping option. -/
def MappingMemory.enter (m : MappingMemory) (n : Node) : MappingMemory :=
  match n.kind with
  | Kind.moduleTransaction => ⟨false, false, n.line⟩
  | Kind.versionDecl =>
    if n.unquotedField? Field.version = some "1.0-ml" then { m with capable := true } else m
  | Kind.optionDecl =>
    if n.nameText? = some "xdmp:mapping" then { m with declared := true } else m
  | _ => m

/-- A transaction whose dialect maps functions declares the option. -/
def functionMappingCheck : Check where
  Memory := MappingMemory
  memory := ⟨false, false, 0⟩
  step _ event m :=
    match event with
    | .enter n => some (m.enter n, [])
    | .exit n =>
      some (m,
        if n.is Kind.moduleTransaction && m.capable && !m.declared then
          [functionMapping.finding m.line
            "Declare the xdmp:mapping option when using the 1.0-ml dialect"]
        else [])
    | _ => some (m, [])

/-! ## version -/

/-- The rule that transactions declare a current version. -/
def version : RuleInfo where
  key := "XQueryVersion"
  name := "XQuery Version"
  priority := .major
  description := "Declare the XQuery version of every module, and avoid the deprecated "
    ++ "0.9-ml dialect."
  enabledByDefault := true

/-- The version that should not be declared any more. -/
def deprecatedVersion : String := "0.9-ml"

/-- What has been met of the version in a transaction. -/
structure VersionMemory where
  declared : Bool
  /-- The line of the transaction. -/
  line : UInt32
deriving DecidableEq, Repr

/-- What a node says about the version. -/
def VersionMemory.enter (m : VersionMemory) (n : Node) : VersionMemory :=
  match n.kind with
  | Kind.moduleTransaction => ⟨false, n.line⟩
  | Kind.versionDecl => { m with declared := true }
  | _ => m

/-- A transaction declares its version, and no version is the deprecated one. -/
def versionCheck : Check where
  Memory := VersionMemory
  memory := ⟨false, 0⟩
  step _ event m :=
    match event with
    | .enter n =>
      some (m.enter n,
        if n.is Kind.versionDecl && n.unquotedField? Field.version == some deprecatedVersion then
          [version.finding n.line
            ("Avoid the deprecated XQuery version " ++ deprecatedVersion)]
        else [])
    | .exit n =>
      some (m,
        if n.is Kind.moduleTransaction && !m.declared then
          [version.finding m.line "Declare the XQuery version"]
        else [])
    | _ => some (m, [])

end QueryAudit.Rules
