import QueryAudit.Proofs.Scope.Stack
import QueryAudit.Proofs.Tree.Search
import QueryAudit.Resolver

/-!
# QueryAudit.Proofs.Resolver.Local

What one event does to the second pass, part by part.  A node either opens a
frame (`Node.opensScope`) or declares symbols (`Node.declares`); everything that
is said of the second pass follows from the equations here, and no proof looks
at the kinds of nodes again.

* `enter_eq`, `exit_eq` — what an event can do, in one equation each;
* `stack_enter_opensScope`, `stack_enter` — the scopes, seen as a stack.
-/

namespace QueryAudit

namespace Node

/-- Whether a node opens a frame of its own. -/
def opensScope (n : Node) : Bool := n.is Kind.functionBody || n.is Kind.flworExpr

/-- The symbols that a node declares when its module has this namespace. -/
def declares (n : Node) (uri : Option String) : List Symbol :=
  match n.kind with
  | Kind.letClause => n.letVariables.map .var
  | Kind.varDecl => (n.declaredVar? uri).toList.map .var
  | Kind.functionDecl => (n.declaredFunction? uri).toList.map .func
  | _ => []

/-- A node that opens a frame declares nothing itself. -/
theorem declares_of_opensScope {n : Node} (h : n.opensScope = true) (uri : Option String) :
    n.declares uri = [] := by
  simp only [opensScope, Bool.or_eq_true, is_eq_true_iff] at h
  rcases h with h | h <;> simp +decide [declares, h]

/-- A main module opens no frame of its own. -/
theorem opensScope_of_mainModule {n : Node} (h : n.is Kind.mainModule = true) :
    n.opensScope = false := by
  rw [is_eq_true_iff] at h
  simp +decide [opensScope, is, h]

theorem not_mainModule_of_opensScope {n : Node} (h : n.opensScope = true) :
    n.is Kind.mainModule = false := by
  by_cases hmain : n.is Kind.mainModule = true
  · rw [opensScope_of_mainModule hmain] at h
    contradiction
  · simpa using hmain

end Node

namespace LocalResolver

variable (n : Node) (r : LocalResolver)

/-- **Entering a node**: each part of the resolver looks at its own kinds of nodes. -/
theorem enter_eq :
    r.enter n =
      { symbols :=
          { scopes :=
              if n.is Kind.functionBody then
                ((r.pending.head?.getD []).map Symbol.var).foldl ScopeTable.define
                  (r.symbols.scopes.push .functionBody)
              else if n.is Kind.flworExpr then r.symbols.scopes.push .flwor
              else (n.declares r.symbols.ownNamespace?).foldl ScopeTable.define r.symbols.scopes
            imports :=
              if n.is Kind.moduleImport then
                n.declaredImport?.elim r.symbols.imports fun i =>
                  r.symbols.imports.insert i.qualifier i
              else r.symbols.imports
            module :=
              if n.is Kind.moduleDecl then some n.declaredModule else r.symbols.module }
        pending :=
          if n.is Kind.functionDecl then n.declaredParams Node.line :: r.pending
          else r.pending } := by
  unfold enter
  split
  case h_7 =>
      cases n.declaredImport? <;>
        simp_all +decide [Node.is, Node.declares, SymbolTable.addImport]
  all_goals
    simp_all +decide [Node.is, Node.declares, SymbolTable.defineAll, SymbolTable.mapScopes]

/-- A node that opens a frame puts the parameters of the function around it there
if it is a function body; any other node declares in the current frame. -/
theorem scopes_enter :
    (r.enter n).symbols.scopes =
      if n.is Kind.functionBody then
        ((r.pending.head?.getD []).map Symbol.var).foldl ScopeTable.define
          (r.symbols.scopes.push .functionBody)
      else if n.is Kind.flworExpr then r.symbols.scopes.push .flwor
      else (n.declares r.symbols.ownNamespace?).foldl ScopeTable.define r.symbols.scopes := by
  rw [enter_eq]

theorem module_enter :
    (r.enter n).symbols.module =
      if n.is Kind.moduleDecl then some n.declaredModule else r.symbols.module := by
  rw [enter_eq]

theorem imports_enter :
    (r.enter n).symbols.imports =
      if n.is Kind.moduleImport then
        n.declaredImport?.elim r.symbols.imports fun i => r.symbols.imports.insert i.qualifier i
      else r.symbols.imports := by
  rw [enter_eq]

theorem pending_enter :
    (r.enter n).pending =
      if n.is Kind.functionDecl then n.declaredParams Node.line :: r.pending else r.pending := by
  rw [enter_eq]

/-- **Leaving a node** touches the scopes and the waiting parameters only.  A node
that opened a frame closes the current one; a main module gives up all frames but
the reserved one and starts a new one. -/
theorem exit_eq :
    r.exit n =
      { symbols :=
          { r.symbols with
            scopes :=
              if n.opensScope then r.symbols.scopes.pop.1
              else if n.is Kind.mainModule then r.symbols.scopes.unwind.push .source
              else r.symbols.scopes }
        pending := if n.is Kind.functionDecl then r.pending.tail else r.pending } := by
  unfold exit
  split <;> simp_all +decide [Node.is, Node.opensScope, SymbolTable.mapScopes]

theorem scopes_exit :
    (r.exit n).symbols.scopes =
      if n.opensScope then r.symbols.scopes.pop.1
      else if n.is Kind.mainModule then r.symbols.scopes.unwind.push .source
      else r.symbols.scopes := by
  rw [exit_eq]

theorem module_exit : (r.exit n).symbols.module = r.symbols.module := by
  rw [exit_eq]

theorem imports_exit : (r.exit n).symbols.imports = r.symbols.imports := by
  rw [exit_eq]

theorem pending_exit :
    (r.exit n).pending = if n.is Kind.functionDecl then r.pending.tail else r.pending := by
  rw [exit_eq]

/-! ## the stack -/

variable {n r}

/-- A unit starts with an empty frame on that of the exports. -/
theorem stack_enterSource {exports : Keyed SymbolKey Symbol}
    (h : r.symbols.scopes.frames[0]? = some ⟨.reserved, none, exports⟩) :
    r.enterSource.symbols.scopes.IsStack
      ∧ r.enterSource.symbols.scopes.stack = [.empty, exports] := by
  simp only [enterSource, SymbolTable.mapScopes, SymbolTable.resetUnit]
  rw [ScopeTable.unwind_of_reserved h, ScopeTable.stack_push, ScopeTable.stack_ofExports]
  exact ⟨(ScopeTable.isStack_ofExports exports).push .source, rfl⟩

/-- Entering a node that opens a frame puts that frame on the stack, with the
parameters that wait for it if it is a function body. -/
theorem stack_enter_opensScope (h : r.symbols.scopes.IsStack) (hopens : n.opensScope = true) :
    (r.enter n).symbols.scopes.IsStack ∧ (r.enter n).symbols.scopes.stack
      = bindAll .empty (if n.is Kind.functionBody then (r.pending.head?.getD []).map .var else [])
        :: r.symbols.scopes.stack := by
  rw [scopes_enter]
  cases hbody : n.is Kind.functionBody with
  | true =>
      exact ScopeTable.stack_foldl_define (h.push .functionBody) _
        (ScopeTable.stack_push r.symbols.scopes .functionBody)
  | false =>
      have hflwor : n.is Kind.flworExpr = true := by
        simpa [Node.opensScope, hbody] using hopens
      simp only [hflwor, Bool.false_eq_true, if_false, if_true]
      exact ⟨h.push .flwor, ScopeTable.stack_push r.symbols.scopes .flwor⟩

/-- Entering any other node binds what it declares in the frame on top. -/
theorem stack_enter (h : r.symbols.scopes.IsStack) (hopens : n.opensScope = false)
    {top : Keyed SymbolKey Symbol} {rest : List (Keyed SymbolKey Symbol)}
    (hs : r.symbols.scopes.stack = top :: rest) :
    (r.enter n).symbols.scopes.IsStack ∧ (r.enter n).symbols.scopes.stack
      = bindAll top (n.declares r.symbols.ownNamespace?) :: rest := by
  simp only [Node.opensScope, Bool.or_eq_false_iff] at hopens
  rw [scopes_enter, hopens.1, hopens.2]
  exact ScopeTable.stack_foldl_define h _ hs

end LocalResolver

end QueryAudit
