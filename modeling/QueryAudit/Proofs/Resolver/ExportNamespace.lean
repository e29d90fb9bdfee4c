import QueryAudit.Proofs.Resolver.Exported
import QueryAudit.Proofs.Resolver.Imported

/-!
# QueryAudit.Proofs.Resolver.ExportNamespace

In which namespace an export is found.  A module exports when the namespace that it states
is not empty, and its exports are found under that namespace.  Yet a name is never looked
up under a blank namespace, so that the exports of a module with a namespace of spaces are
found without one.

* `mem_exported_iff` — which symbols a tree exports, and from which module;
* `Exports.uri_eq` — the namespace under which an export is found;
* `namespace_of_export` — what the first pass has bound after any number of trees.
-/

namespace QueryAudit

/-! ## namespaces -/

theorem namespaceIn_eq_some_iff {module : Option ModuleIdentity} {uri : String} :
    namespaceIn module = some uri ↔ ∃ m, module = some m ∧ m.uri = uri ∧ uri ≠ "" := by
  cases module with
  | none => simp [namespaceIn]
  | some m =>
      simp only [namespaceIn, Option.map_some, Option.filter_eq_some_iff, Option.some.injEq,
        Bool.not_eq_true', String.isEmpty_eq_false_iff, exists_eq_left']

/-! ## exports -/

/-- A site exports a symbol from a module: it declares it as a function or as a variable,
and the module is the last one that was declared before and states a namespace. -/
structure Exports (sites : List Site) (s : Site) (m : ModuleIdentity) (symbol : Symbol) :
    Prop where
  mem_sites : s ∈ sites
  is_declaration : s.node.is Kind.functionDecl = true ∨ s.node.is Kind.varDecl = true
  lastModule_eq : lastModule (sites.filter (·.index < s.index)) = some m
  uri_ne_empty : m.uri ≠ ""
  mem_declares : symbol ∈ s.node.declares (some m.uri)

/-- **What a tree exports** is exported by one of its sites. -/
theorem mem_exported_iff {sites : List Site} {symbol : Symbol} :
    symbol ∈ exported sites ↔ ∃ s m, Exports sites s m symbol := by
  simp only [exported, declaredWhere, List.mem_flatMap, List.mem_filter, Bool.and_eq_true,
    Bool.or_eq_true, Option.isSome_iff_exists]
  constructor
  · rintro ⟨s, ⟨hs, hkind, uri, huri⟩, hsymbol⟩
    rw [bindings, huri] at hsymbol
    obtain ⟨m, hm, rfl, hne⟩ := namespaceIn_eq_some_iff.1 huri
    exact ⟨s, m, hs, hkind, hm, hne, hsymbol⟩
  · rintro ⟨s, m, hs, hkind, hm, hne, hsymbol⟩
    have huri : namespaceIn (lastModule (sites.filter (·.index < s.index))) = some m.uri :=
      namespaceIn_eq_some_iff.2 ⟨m, hm, rfl, hne⟩
    refine ⟨s, ⟨hs, hkind, m.uri, huri⟩, ?_⟩
    rw [bindings, huri]
    exact hsymbol

/-- **The namespace of an export** is that of its module, unless this is blank. -/
theorem Exports.uri_eq {sites : List Site} {s : Site} {m : ModuleIdentity} {symbol : Symbol}
    (h : Exports sites s m symbol) : symbol.key.uri = properUri (some m.uri) := by
  have hlet : ¬ s.node.is Kind.letClause = true := by
    rcases h.is_declaration with hkind | hkind <;>
      simp +decide [Node.is, Node.is_eq_true_iff.1 hkind]
  rw [s.node.uri_declares _ symbol h.mem_declares, if_neg hlet]

/-- An export is found without a namespace when that of its module is blank. -/
theorem Exports.key_eq_iff {sites : List Site} {s : Site} {m : ModuleIdentity} {symbol : Symbol}
    (h : Exports sites s m symbol) (name : String) :
    symbol.key = ⟨name, none⟩ ↔ symbol.key.name = name ∧ isBlankText m.uri = true := by
  have huri : symbol.key.uri = none ↔ isBlankText m.uri = true := by
    rw [h.uri_eq, properUri_eq_none_iff]
    simp
  rw [← huri, ← SymbolKey.mk.injEq]

/-! ## the first pass -/

/-- The first pass over trees, one after the other. -/
def mapTrees (roots : List Node) : ExportMapper :=
  roots.foldl (fun m root => mapTree root m) .initial

theorem scopes_mapTrees (roots : List Node) :
    (mapTrees roots).symbols.scopes
      = .ofExports (bindAll .empty (roots.flatMap fun root => exported root.sites)) :=
  ExportMapper.scopes_foldl_mapTree roots rfl

/-- All that the first pass binds are exports, and the last one under a key counts. -/
theorem find?_mapTrees (roots : List Node) (key : SymbolKey) :
    (mapTrees roots).symbols.scopes.reserved.find? key
      = lastUnder key (roots.flatMap fun root => exported root.sites) := by
  rw [scopes_mapTrees, ScopeTable.reserved_ofExports, find?_bindAll, Keyed.find?_empty,
    Option.or_none]

/-- A look-up in the first pass searches the exports. -/
theorem symbol?_mapTrees (roots : List Node) (name : String) (uri : Option String) :
    (mapTrees roots).symbols.symbol? name uri
      = (mapTrees roots).symbols.scopes.reserved.find? (.make name uri) := by
  rw [SymbolTable.symbol?, scopes_mapTrees, ScopeTable.lookup_ofExports,
    ScopeTable.reserved_ofExports]

/-- **Namespaces of exports**: every symbol in the reserved frame is exported from a module
and bound under the namespace of that module, which is none when it is blank.  So a look-up
without a namespace finds a symbol exactly when one of that name is exported from a module
whose namespace is blank, though not empty. -/
theorem namespace_of_export (roots : List Node) :
    (∀ key symbol, (mapTrees roots).symbols.scopes.reserved.find? key = some symbol →
      symbol.key = key ∧ ∃ root ∈ roots, ∃ s m,
        Exports root.sites s m symbol ∧ key.uri = properUri (some m.uri)) ∧
    ∀ name uri, (∀ text ∈ uri, isBlankText text = true) →
      (((mapTrees roots).symbols.symbol? name uri).isSome = true ↔
        ∃ root ∈ roots, ∃ s m symbol, Exports root.sites s m symbol ∧
          symbol.key.name = localName name ∧ isBlankText m.uri = true) := by
  constructor
  · intro key symbol hfind
    rw [find?_mapTrees] at hfind
    obtain ⟨hsymbol, rfl⟩ := of_lastUnder_eq_some hfind
    obtain ⟨root, hroot, hexported⟩ := List.mem_flatMap.1 hsymbol
    obtain ⟨s, m, hexports⟩ := mem_exported_iff.1 hexported
    exact ⟨rfl, root, hroot, s, m, hexports, hexports.uri_eq⟩
  · intro name uri hblank
    have hmake : SymbolKey.make name uri = ⟨localName name, none⟩ := by
      rw [SymbolKey.make, properUri_eq_none_iff.2 hblank]
    rw [symbol?_mapTrees, find?_mapTrees, isSome_lastUnder_iff, hmake]
    constructor
    · rintro ⟨symbol, hsymbol, hkey⟩
      obtain ⟨root, hroot, hexported⟩ := List.mem_flatMap.1 hsymbol
      obtain ⟨s, m, hexports⟩ := mem_exported_iff.1 hexported
      exact ⟨root, hroot, s, m, symbol, hexports, (hexports.key_eq_iff _).1 hkey⟩
    · rintro ⟨root, hroot, s, m, symbol, hexports, hblank⟩
      exact ⟨symbol, List.mem_flatMap.2 ⟨root, hroot, mem_exported_iff.2 ⟨s, m, hexports⟩⟩,
        (hexports.key_eq_iff _).2 hblank⟩

/-- A module with a namespace of one space, and a variable behind it. -/
def blankModule : Node :=
  ⟨⟨"module", none, ⟨1, 0⟩⟩,
    .node ⟨Kind.moduleDecl, none, ⟨1, 0⟩⟩
      (.leaf ⟨"p", some Field.qualifier, ⟨1, 0⟩⟩ (.leaf ⟨"' '", some Field.uri, ⟨1, 0⟩⟩ .nil))
    (.node ⟨Kind.varDecl, none, ⟨2, 0⟩⟩ (.leaf ⟨"$x", some Field.name, ⟨2, 0⟩⟩ .nil) .nil)⟩

/-- The variable is bound without a namespace, so that look-ups without one find it. -/
theorem namespace_of_export_blankModule :
    (mapTrees [blankModule]).symbols.scopes.reserved.find? ⟨"x", none⟩
        = some (.var ⟨"x", none, none, 2⟩) ∧
      ∀ uri, (∀ text ∈ uri, isBlankText text = true) →
        ((mapTrees [blankModule]).symbols.symbol? "$x" uri).isSome = true := by
  have hbound : (mapTrees [blankModule]).symbols.scopes.reserved.find? ⟨"x", none⟩
      = some (.var ⟨"x", none, none, 2⟩) := by decide +kernel
  obtain ⟨hexport, hlookup⟩ := namespace_of_export [blankModule]
  obtain ⟨-, root, hroot, s, m, hexports, huri⟩ := hexport _ _ hbound
  have hblank : isBlankText m.uri = true := properUri_eq_none_iff.1 huri.symm _ rfl
  refine ⟨hbound, fun uri huri => ?_⟩
  exact (hlookup "$x" uri huri).2 ⟨root, hroot, s, m, _, hexports, by decide, hblank⟩

end QueryAudit
