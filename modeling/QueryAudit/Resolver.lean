import QueryAudit.SymbolTable

/-!
# QueryAudit.Resolver

The two passes that resolve names.  The first, `ExportMapper`, walks every unit
and binds what library modules export in the reserved frame.  The second,
`LocalResolver`, walks each unit again and follows its lexical scopes.

Both answer to the same four events of a walk; `Resolver` names them.
-/

namespace QueryAudit

/-- Which pass is running. -/
inductive Mode where
  /-- Exports are collected from all units. -/
  | global
  /-- The lexical scopes of one unit are followed. -/
  | lexical
deriving DecidableEq, Repr

/-- There is no pass of that name. -/
structure InvalidMode where
  name : String
deriving DecidableEq, Repr

/-- Which name no mode has, and which names there are. -/
def InvalidMode.message (e : InvalidMode) : String :=
  "invalid resolver mode '" ++ e.name ++ "': must be either 'global' or 'local'"

namespace Mode

/-- The name of a mode. -/
def name : Mode → String
  | global => "global"
  | lexical => "local"

/-- The mode with a name. -/
def ofName (name : String) : Except InvalidMode Mode :=
  if name = "global" then .ok global
  else if name = "local" then .ok lexical
  else .error ⟨name⟩

/-- A pass is found by its name. -/
theorem ofName_name (m : Mode) : ofName m.name = .ok m := by
  cases m <;> rfl

end Mode

/-- What a walk tells a resolver. -/
class Resolver (ρ : Type) where
  symbols : ρ → SymbolTable
  /-- The walk of a unit begins. -/
  enterSource : ρ → ρ
  /-- The walk of a unit is over. -/
  exitSource : ρ → ρ
  /-- The walk comes to a node. -/
  enter : Node → ρ → ρ
  /-- The walk leaves a node. -/
  exit : Node → ρ → ρ

/-! ## the first pass -/

/-- Binds what library modules export in the reserved frame. -/
structure ExportMapper where
  symbols : SymbolTable
deriving DecidableEq, Repr

namespace ExportMapper

/-- No names exported yet. -/
def initial : ExportMapper := ⟨.initial⟩

/-- Forget the unit, keeping all exports. -/
def recover (m : ExportMapper) : ExportMapper := ⟨m.symbols.resetUnit⟩

/-- Bind a symbol declared in the namespace of the module, if there is one. -/
def publish (m : ExportMapper) (declared : Option String → Option Symbol) : ExportMapper :=
  match m.symbols.ownNamespace? with
  | none => m
  | some uri =>
    match declared (some uri) with
    | none => m
    | some symbol => ⟨m.symbols.mapScopes (·.defineReserved symbol)⟩

/-- A module declaration names the module.  Behind it functions and variables
are exported into its namespace; a unit without a namespace exports nothing. -/
def enter (n : Node) (m : ExportMapper) : ExportMapper :=
  match n.kind with
  | Kind.moduleDecl => ⟨{ m.symbols with module := some n.declaredModule }⟩
  | Kind.functionDecl => m.publish fun uri => (n.declaredFunction? uri).map .func
  | Kind.varDecl => m.publish fun uri => (n.declaredVar? uri).map .var
  | _ => m

instance : Resolver ExportMapper where
  symbols := symbols
  enterSource m := m.recover
  exitSource m := m
  enter := enter
  exit _ m := m

end ExportMapper

/-! ## the second pass -/

/-- Follows the lexical scopes of one unit at a time. -/
structure LocalResolver where
  symbols : SymbolTable
  /-- The parameters of the function declarations around, innermost first. -/
  pending : List (List Declaration)
deriving DecidableEq, Repr

/-- Go on to the second pass with all exports. -/
def ExportMapper.toLocal (m : ExportMapper) : LocalResolver := ⟨m.symbols, []⟩

namespace LocalResolver

/-- Forget the unit, keeping all exports. -/
def recover (r : LocalResolver) : LocalResolver :=
  ⟨(r.symbols.mapScopes .unwind).resetUnit, []⟩

/-- Start over with a frame for the unit. -/
def enterSource (r : LocalResolver) : LocalResolver :=
  ⟨r.symbols.resetUnit.mapScopes fun scopes => scopes.unwind.push .source, []⟩

/-- A unit is over: the frames opened in it are given up. -/
def exitSource (r : LocalResolver) : LocalResolver :=
  { r with symbols := r.symbols.mapScopes .unwind }

/-- Declarations are bound in the current frame.  A function body opens a frame
with the parameters of the function around it, and so does a FLWOR expression,
without parameters. -/
def enter (n : Node) (r : LocalResolver) : LocalResolver :=
  match n.kind with
  | Kind.moduleDecl => { r with symbols.module := some n.declaredModule }
  | Kind.functionBody =>
    { r with
      symbols := (r.symbols.mapScopes (·.push .functionBody)).defineAll
        ((r.pending.head?.getD []).map .var) }
  | Kind.flworExpr => { r with symbols := r.symbols.mapScopes (·.push .flwor) }
  | Kind.letClause => { r with symbols := r.symbols.defineAll (n.letVariables.map .var) }
  | Kind.varDecl =>
    { r with
      symbols := r.symbols.defineAll
        ((n.declaredVar? r.symbols.ownNamespace?).toList.map .var) }
  | Kind.functionDecl =>
    ⟨r.symbols.defineAll ((n.declaredFunction? r.symbols.ownNamespace?).toList.map .func),
      n.declaredParams Node.line :: r.pending⟩
  | Kind.moduleImport =>
    match n.declaredImport? with
    | none => r
    | some i => { r with symbols := r.symbols.addImport i }
  | _ => r

/-- Leaving a function body or a FLWOR expression closes its frame.  Leaving a
main module ends a transaction: what it declared is forgotten. -/
def exit (n : Node) (r : LocalResolver) : LocalResolver :=
  match n.kind with
  | Kind.functionBody => { r with symbols := r.symbols.mapScopes (·.pop.1) }
  | Kind.flworExpr => { r with symbols := r.symbols.mapScopes (·.pop.1) }
  | Kind.functionDecl => { r with pending := r.pending.tail }
  | Kind.mainModule =>
    { r with symbols := r.symbols.mapScopes fun scopes => scopes.unwind.push .source }
  | _ => r

instance : Resolver LocalResolver where
  symbols := symbols
  enterSource := enterSource
  exitSource := exitSource
  enter := enter
  exit := exit

end LocalResolver

end QueryAudit
