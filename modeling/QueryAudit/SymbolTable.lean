import QueryAudit.Scope
import QueryAudit.Tree.Grammar

/-!
# QueryAudit.SymbolTable

What is known about names at one point of a source unit: the scope frames, the
imports so far, and the module that the unit declares itself to be.  Lookups go
by raw names as they stand in the source.

The second half of the module reads off a node what it declares.
-/

namespace QueryAudit

/-- The qualifier and the namespace that a library module declares. -/
structure ModuleIdentity where
  qualifier : String
  uri : String
deriving DecidableEq, Repr

/-- The names known at one point. -/
structure SymbolTable where
  scopes : ScopeTable
  imports : Keyed String Import
  module : Option ModuleIdentity
deriving DecidableEq, Repr

namespace SymbolTable

/-- Nothing is known. -/
def initial : SymbolTable := ⟨.initial, .empty, none⟩

/-- What a raw name in a namespace stands for. -/
def symbol? (t : SymbolTable) (name : String) (uri : Option String) : Option Symbol :=
  t.scopes.lookup (.make name uri)

/-- The declaration that a raw name in a namespace stands for. -/
def declaration? (t : SymbolTable) (name : String) (uri : Option String) : Option Declaration :=
  (t.symbol? name uri).map Symbol.declaration

/-- The function that a raw name in a namespace stands for; `none` when it
stands for a variable. -/
def function? (t : SymbolTable) (name : String) (uri : Option String) : Option Function :=
  (t.symbol? name uri).bind Symbol.function?

/-- The qualifier of a raw name: what is before its first colon, or all of it. -/
def qualifierOf (name : String) : String :=
  match cut ':' (dropSigil name.toList) with
  | some (before, _) => String.ofList before
  | none => String.ofList (dropSigil name.toList)

/-- The namespace that the qualifier of a raw name is bound to, by the module
declaration or else by an import. -/
def namespaceOf? (t : SymbolTable) (name : String) : Option String :=
  let qualifier := qualifierOf name
  match t.module with
  | some m =>
    if m.qualifier = qualifier then some m.uri
    else (t.imports.find? qualifier).map Import.uri
  | none => (t.imports.find? qualifier).map Import.uri

/-- The import with a qualifier. -/
def import? (t : SymbolTable) (qualifier : String) : Option Import := t.imports.find? qualifier

/-- The namespace of the module that is being read, if it declares one. -/
def ownNamespace? (t : SymbolTable) : Option String :=
  (t.module.map ModuleIdentity.uri).filter fun uri => !uri.isEmpty

/-- The number of frames in the scopes, the reserved one included. -/
def frameCount (t : SymbolTable) : Nat := t.scopes.frameCount

/-- Forget the imports and the module of a unit. -/
def resetUnit (t : SymbolTable) : SymbolTable := { t with imports := .empty, module := none }

/-! ## changes -/

/-- Change the scopes and nothing else. -/
def mapScopes (t : SymbolTable) (f : ScopeTable → ScopeTable) : SymbolTable :=
  { t with scopes := f t.scopes }

/-- Bind symbols in the current frame, one after the other. -/
def defineAll (t : SymbolTable) (symbols : List Symbol) : SymbolTable :=
  t.mapScopes fun scopes => symbols.foldl ScopeTable.define scopes

/-- Add an import; one with the same qualifier is replaced in its place. -/
def addImport (t : SymbolTable) (i : Import) : SymbolTable :=
  { t with imports := t.imports.insert i.qualifier i }

end SymbolTable

/-! ## what a node declares -/

namespace Node

/-- The module that a module declaration announces. -/
def declaredModule (n : Node) : ModuleIdentity :=
  ⟨((n.childByField? Field.qualifier).map Element.text).getD "",
    (n.unquotedField? Field.uri).getD ""⟩

/-- The import that a module import announces; it needs a qualifier. -/
def declaredImport? (n : Node) : Option Import :=
  (n.childByField? Field.qualifier).map fun qualifier =>
    ⟨qualifier.text, (n.unquotedField? Field.uri).getD "", n.line,
      (n.childrenByField Field.location).map Element.unquotedText⟩

/-- The parameters of a function declaration that have a name, on the lines
that `line` gives them. -/
def declaredParams (n : Node) (line : Node → UInt32) : List Declaration :=
  n.params.filterMap fun param =>
    param.nameText?.map fun name => .make name none param.declaredType? (line param)

/-- The function that a node declares in a namespace, with its parameters on the
line of the declaration. -/
def declaredFunction? (n : Node) (uri : Option String) : Option Function :=
  n.functionName?.map fun name =>
    (n.declaredParams fun _ => n.line).foldl Function.addParameter
      (.ofDeclaration (.make name uri n.declaredType? n.line))

/-- The variable that a node declares in a namespace. -/
def declaredVar? (n : Node) (uri : Option String) : Option Declaration :=
  n.nameText?.map fun name => .make name uri n.declaredType? n.line

/-- The variables that a let clause binds, all on the line of the clause. -/
def letVariables (n : Node) : List Declaration :=
  (n.childrenByKind Kind.letVar).filterMap fun var =>
    var.nameText?.map fun name => .make name none var.declaredType? n.line

end Node

end QueryAudit
