import QueryAudit.Proofs.Data.Keyed
import QueryAudit.Proofs.Resolver.ExportNamespace

/-!
# QueryAudit.Proofs.Resolver.ExportTable

The table that the first pass leaves behind, said of the nodes of the units alone.  A node
exports what it declares into the namespace that the last module declaration before it
states; of all nodes that export a symbol under a key, the last one counts.

* `Node.exported?_eq_some_iff` — which symbol a node declares, part by part;
* `exported_eq` — what a tree exports, node by node;
* `export_table` — what is in the table after any number of units.
-/

namespace QueryAudit

/-! ## what a node declares, part by part -/

namespace Node

variable {n : Node} {uri : String} {symbol : Symbol}

/-- The parameters of a function declaration that have a name, in order, each under its local
name and on the line of the declaration. -/
def parameterEntries (n : Node) : List (String × Declaration) :=
  n.params.filterMap fun param => param.nameText?.map fun name =>
    (localName name, ⟨localName name, none, param.declaredType?, n.line⟩)

/-- The map holds the parameters of a function declaration: a repeated name has the place of
the first parameter so named, and is declared as the last one is. -/
structure Collects (n : Node) (parameters : Keyed String Declaration) : Prop where
  keys_eq : parameters.keys = (n.parameterEntries.map Prod.fst).eraseDups
  find?_eq : ∀ name,
    parameters.find? name = (n.parameterEntries.reverse.find? (·.1 = name)).map Prod.snd

theorem collects_iff {parameters : Keyed String Declaration} :
    n.Collects parameters ↔ parameters = .insertAll n.parameterEntries := by
  constructor
  · intro h
    refine (Keyed.ext_find? ?_ (Keyed.nodup_keys_insertAll _) fun name => ?_).symm
    · rw [Keyed.keys_insertAll, h.keys_eq]
    · rw [Keyed.find?_insertAll, h.find?_eq]
  · rintro rfl
    exact ⟨Keyed.keys_insertAll _, Keyed.find?_insertAll _⟩

/-- A function declaration collects its parameters. -/
theorem foldl_addParameter (n : Node) (d : Declaration) :
    (n.declaredParams fun _ => n.line).foldl Function.addParameter (.ofDeclaration d)
      = ⟨d, .insertAll n.parameterEntries⟩ := by
  have hparams : (n.declaredParams fun _ => n.line) = n.parameterEntries.map Prod.snd := by
    rw [declaredParams, parameterEntries, List.map_filterMap]
    simp only [Option.map_map]
    rfl
  have hentry : ∀ entry ∈ n.parameterEntries,
      entry.1 = entry.2.name ∧ { entry.2 with uri := none } = entry.2 := by
    intro entry hentry
    obtain ⟨param, -, hparam⟩ := List.mem_filterMap.1 hentry
    obtain ⟨name, -, rfl⟩ := Option.map_eq_some_iff.1 hparam
    exact ⟨rfl, rfl⟩
  rw [hparams]
  generalize n.parameterEntries = entries at hentry
  induction entries using List.reverseRecOn with
  | nil => rfl
  | append_singleton entries entry ih =>
      obtain ⟨hname, huri⟩ := hentry entry (by simp)
      rw [List.map_append, List.foldl_append, ih fun e he => hentry e (by simp [he]),
        Keyed.insertAll_append, hname]
      simp [Function.addParameter, huri]

/-- What a node declares in a namespace when it is a function or a variable declaration. -/
inductive Declares (n : Node) (uri : String) : Symbol → Prop
  /-- A variable has a name. -/
  | var {name : String} (hkind : n.kind = Kind.varDecl) (hname : n.nameText? = some name) :
      Declares n uri (.var ⟨localName name, properUri (some uri), n.declaredType?, n.line⟩)
  /-- A function has a name that is not blank, and parameters. -/
  | func {name : String} {parameters : Keyed String Declaration}
      (hkind : n.kind = Kind.functionDecl) (hname : n.functionName? = some name)
      (hproper : isBlankText name = false) (hparameters : n.Collects parameters) :
      Declares n uri
        (.func ⟨⟨localName name, properUri (some uri), n.declaredType?, n.line⟩, parameters⟩)

/-- The symbol that a node declares in a namespace when it is a function or a variable
declaration. -/
def exported? (n : Node) (uri : String) : Option Symbol :=
  match n.kind with
  | Kind.functionDecl => (n.declaredFunction? (some uri)).map .func
  | Kind.varDecl => (n.declaredVar? (some uri)).map .var
  | _ => none

theorem isBlankText_of_functionName? {name : String} (h : n.functionName? = some name) :
    isBlankText name = false := by
  simpa using (Option.filter_eq_some_iff.1 h).2

theorem declaredFunction?_eq_some_iff {f : Function} :
    n.declaredFunction? (some uri) = some f ↔ ∃ name, n.functionName? = some name ∧
      f = ⟨⟨localName name, properUri (some uri), n.declaredType?, n.line⟩,
        .insertAll n.parameterEntries⟩ := by
  simp only [declaredFunction?, foldl_addParameter, Option.map_eq_some_iff, eq_comm (b := f)]
  rfl

/-- **What a node declares** is a variable or a function as its parts say. -/
theorem exported?_eq_some_iff : n.exported? uri = some symbol ↔ n.Declares uri symbol := by
  constructor
  · intro h
    unfold exported? at h
    split at h
    case h_1 hkind =>
        obtain ⟨f, hf, rfl⟩ := Option.map_eq_some_iff.1 h
        obtain ⟨name, hname, rfl⟩ := declaredFunction?_eq_some_iff.1 hf
        exact .func hkind hname (isBlankText_of_functionName? hname) (collects_iff.2 rfl)
    case h_2 hkind =>
        obtain ⟨d, hd, rfl⟩ := Option.map_eq_some_iff.1 h
        obtain ⟨name, hname, rfl⟩ := Option.map_eq_some_iff.1 hd
        exact .var hkind hname
    case h_3 => cases h
  · rintro (⟨hkind, hname⟩ | ⟨hkind, hname, -, hparameters⟩)
    · simp +decide [exported?, hkind, declaredVar?, hname, Declaration.make]
    · have hf : n.declaredFunction? (some uri) = some _ :=
        declaredFunction?_eq_some_iff.2 ⟨_, hname, rfl⟩
      simp +decide [exported?, hkind, hf, collects_iff.1 hparameters]

end Node

/-! ## what a tree exports, node by node -/

/-- A node of a tree with the nodes before it. -/
structure Occurrence where
  before : List Node
  node : Node

/-- The nodes of a tree in document order. -/
def Node.occurrences (root : Node) : List Occurrence :=
  root.preorder.mapIdx fun i n => ⟨root.preorder.take i, n⟩

namespace Occurrence

variable (o : Occurrence)

/-- The last module declaration before the node. -/
def moduleDecl? : Option Node := (o.before.filter (·.is Kind.moduleDecl)).getLast?

/-- The node exports a symbol: it declares it in the namespace that the last module declaration
before it states, and this is not empty. -/
def Exports (symbol : Symbol) : Prop :=
  ∃ m uri, o.moduleDecl? = some m ∧ m.unquotedField? Field.uri = some uri ∧ uri ≠ "" ∧
    o.node.Declares uri symbol

/-- The symbol that the node exports. -/
def exported? : Option Symbol :=
  (namespaceIn (o.moduleDecl?.map Node.declaredModule)).bind o.node.exported?

theorem exported?_eq_some_iff {symbol : Symbol} :
    o.exported? = some symbol ↔ o.Exports symbol := by
  simp only [exported?, Option.bind_eq_some_iff, namespaceIn_eq_some_iff, Option.map_eq_some_iff,
    Node.exported?_eq_some_iff, Exports]
  constructor
  · rintro ⟨uri, ⟨-, ⟨m, hm, rfl⟩, huri, hne⟩, hsymbol⟩
    cases hfield : m.unquotedField? Field.uri with
    | none =>
        rw [Node.declaredModule, hfield] at huri
        exact absurd huri.symm hne
    | some stated =>
        rw [Node.declaredModule, hfield] at huri
        cases huri
        exact ⟨m, stated, hm, hfield, hne, hsymbol⟩
  · rintro ⟨m, uri, hm, hfield, hne, hsymbol⟩
    refine ⟨uri, ⟨_, ⟨m, hm, rfl⟩, ?_, hne⟩, hsymbol⟩
    rw [Node.declaredModule, hfield]
    rfl

end Occurrence

/-- The sites with lower numbers than a site are those that stand before it. -/
theorem Trail.Sound.filter_lt {t : Trail} (h : t.Sound) (i : Nat) :
    t.entered.filter (·.index < i) = t.entered.take i := by
  have htake : (t.entered.take i).filter (·.index < i) = t.entered.take i := by
    rw [List.filter_eq_self]
    intro s hs
    obtain ⟨j, hj, hat⟩ := List.mem_take_iff_getElem.1 hs
    rw [h.index_eq j s (hat ▸ List.getElem?_eq_getElem _)]
    exact decide_eq_true (by omega)
  have hdrop : (t.entered.drop i).filter (·.index < i) = [] := by
    rw [List.filter_eq_nil_iff]
    intro s hs
    obtain ⟨j, hj, hat⟩ := List.getElem_of_mem hs
    rw [List.getElem_drop] at hat
    rw [h.index_eq (i + j) s (hat ▸ List.getElem?_eq_getElem _)]
    simp
  conv_lhs => rw [← List.take_append_drop i t.entered]
  rw [List.filter_append, htake, hdrop, List.append_nil]

/-- The sites of a tree are those of a walk that is over. -/
theorem Node.sound_sites (root : Node) : (Trail.mk root.sites []).Sound := by
  rw [← root.foldl_events]
  exact (Trail.foldl_induct (motive := fun _ (_ : ExportMapper) => True)
    (fun _ _ _ _ _ => trivial) (fun _ _ _ _ _ _ _ => trivial) Trail.sound_start
    (r := .initial) trivial root.allows_events).1

/-- The occurrences in a tree are its sites, each with the nodes of those before it. -/
theorem Node.occurrences_eq (root : Node) :
    root.occurrences = root.sites.map fun s =>
      ⟨(root.sites.filter (·.index < s.index)).map (·.node), s.node⟩ := by
  have hsound := root.sound_sites
  rw [occurrences, List.mapIdx_eq_iff]
  intro i
  rw [← map_node_sites, List.getElem?_map, List.getElem?_map, Option.map_map]
  refine Option.map_congr fun s hs => ?_
  -- the site at place `i` has the number `i`
  rw [hsound.index_eq i s hs, hsound.filter_lt, List.map_take]
  rfl

/-- The symbol that a function or variable declaration exports is the one it declares. -/
theorem Node.toList_exported? (n : Node) (uri : String) :
    (n.exported? uri).toList
      = if n.is Kind.functionDecl || n.is Kind.varDecl then n.declares (some uri) else [] := by
  unfold exported?
  split
  case h_1 hkind => simp +decide [is, hkind, declares, Option.toList_map]
  case h_2 hkind => simp +decide [is, hkind, declares, Option.toList_map]
  case h_3 hfunc hvar =>
      have hfunc : n.is Kind.functionDecl = false := beq_eq_false_iff_ne.2 hfunc
      have hvar : n.is Kind.varDecl = false := beq_eq_false_iff_ne.2 hvar
      simp [hfunc, hvar]

theorem flatMap_filter_eq_filterMap {α β : Type} {l : List α} {p : α → Bool} {f : α → List β}
    {g : α → Option β} (h : ∀ a, (if p a then f a else []) = (g a).toList) :
    (l.filter p).flatMap f = l.filterMap g := by
  induction l with
  | nil => rfl
  | cons a l ih =>
      have ha := h a
      cases hp : p a with
      | true =>
          rw [hp, if_pos rfl] at ha
          rw [List.filter_cons_of_pos hp, List.flatMap_cons, ih, ha]
          cases hg : g a <;> simp [hg]
      | false =>
          rw [hp, if_neg Bool.false_ne_true] at ha
          have hg : g a = none := by simpa using ha.symm
          rw [List.filter_cons_of_neg (by simp [hp]), ih, List.filterMap_cons_none hg]

/-- **What a tree exports** are the symbols that its nodes export. -/
theorem exported_eq (root : Node) :
    exported root.sites = root.occurrences.filterMap Occurrence.exported? := by
  rw [root.occurrences_eq, List.filterMap_map, exported, declaredWhere]
  refine flatMap_filter_eq_filterMap fun s => ?_
  have hmodule : (Occurrence.moduleDecl?
        ⟨(root.sites.filter (·.index < s.index)).map (·.node), s.node⟩).map Node.declaredModule
      = lastModule (root.sites.filter (·.index < s.index)) := by
    rw [Occurrence.moduleDecl?, lastModule, List.filter_map, List.getLast?_map, Option.map_map]
    rfl
  rw [Function.comp_apply, Occurrence.exported?, hmodule, bindings]
  cases namespaceIn (lastModule (root.sites.filter (·.index < s.index))) with
  | none => simp
  | some uri => rw [Option.isSome_some, Bool.and_true, Option.bind_some, Node.toList_exported?]

/-! ## the table -/

/-- The last of some symbols under a key is that of the last member that gives one. -/
theorem lastUnder_filterMap_eq_some_iff {α : Type} {l : List α} {f : α → Option Symbol}
    {key : SymbolKey} {symbol : Symbol} :
    lastUnder key (l.filterMap f) = some symbol ↔ ∃ before a after, l = before ++ a :: after ∧
      f a = some symbol ∧ symbol.key = key ∧
      ∀ b ∈ after, ∀ other, f b = some other → other.key ≠ key := by
  simp only [lastUnder, ← List.filterMap_reverse, List.find?_filterMap, Option.bind_eq_some_iff,
    List.find?_eq_some_iff_append]
  constructor
  · rintro ⟨a, ⟨hkey, as, bs, hl, hnone⟩, hsymbol⟩
    refine ⟨bs.reverse, a, as.reverse, ?_, hsymbol, ?_, fun b hb other hother heq => ?_⟩
    · rw [← List.reverse_inj, hl]
      simp
    · simpa [hsymbol] using hkey
    · have hb := hnone b (List.mem_reverse.1 hb)
      simp [hother, heq] at hb
  · rintro ⟨before, a, after, rfl, hsymbol, hkey, hnone⟩
    refine ⟨a, ⟨by simp [hsymbol, hkey], after.reverse, before.reverse, by simp, ?_⟩, hsymbol⟩
    intro b hb
    cases hb' : f b with
    | none => rfl
    | some other => simp [hnone b (List.mem_reverse.1 hb) other hb']

/-- **The table of exports**: after any number of units there is one frame.  A key is bound in
it to a symbol exactly when the last of all nodes that export a symbol under the key, over the
units in order and their nodes in document order, exports this one. -/
theorem export_table (roots : List Node) :
    ∃ exports, (mapTrees roots).symbols.scopes.frames = #[⟨.reserved, none, exports⟩] ∧
      ∀ key symbol, exports.find? key = some symbol ↔
        ∃ before o after, roots.flatMap Node.occurrences = before ++ o :: after ∧
          o.Exports symbol ∧ symbol.key = key ∧
          ∀ o' ∈ after, ∀ other, o'.Exports other → other.key ≠ key := by
  refine ⟨_, by rw [scopes_mapTrees]; rfl, fun key symbol => ?_⟩
  have hexported : (roots.flatMap fun root => exported root.sites)
      = (roots.flatMap Node.occurrences).filterMap Occurrence.exported? := by
    rw [List.filterMap_flatMap, funext exported_eq]
  rw [find?_bindAll, Keyed.find?_empty, Option.or_none, hexported, lastUnder_filterMap_eq_some_iff]
  simp only [Occurrence.exported?_eq_some_iff]

/-- A module that declares a variable behind its namespace, and a function before it. -/
def variableModule : Node :=
  ⟨⟨"module", none, ⟨1, 0⟩⟩,
    .node ⟨Kind.functionDecl, none, ⟨1, 0⟩⟩ (.leaf ⟨"g", some Field.name, ⟨1, 0⟩⟩ .nil)
    (.node ⟨Kind.moduleDecl, none, ⟨2, 0⟩⟩ (.leaf ⟨"'u'", some Field.uri, ⟨2, 0⟩⟩ .nil)
    (.node ⟨Kind.varDecl, none, ⟨3, 0⟩⟩ (.leaf ⟨"$p:f", some Field.name, ⟨3, 0⟩⟩ .nil) .nil))⟩

/-- A module in the same namespace that declares a function with a parameter twice. -/
def functionModule : Node :=
  ⟨⟨"module", none, ⟨1, 0⟩⟩,
    .node ⟨Kind.moduleDecl, none, ⟨1, 0⟩⟩ (.leaf ⟨"'u'", some Field.uri, ⟨1, 0⟩⟩ .nil)
    (.node ⟨Kind.functionDecl, none, ⟨2, 0⟩⟩
      (.leaf ⟨"q:f", some Field.name, ⟨2, 0⟩⟩
      (.node ⟨Kind.param, none, ⟨3, 0⟩⟩ (.leaf ⟨"$a", some Field.name, ⟨3, 0⟩⟩ .nil)
      (.node ⟨Kind.param, none, ⟨4, 0⟩⟩ (.leaf ⟨"$b", some Field.name, ⟨4, 0⟩⟩ .nil)
      (.node ⟨Kind.param, none, ⟨5, 0⟩⟩
        (.leaf ⟨"$a", some Field.name, ⟨5, 0⟩⟩ (.leaf ⟨"xs:int", some Field.type, ⟨5, 0⟩⟩ .nil))
        .nil)))) .nil)⟩

/-- The function that `functionModule` exports. -/
def overwritingFunction : Function :=
  ⟨⟨"f", some "u", none, 2⟩,
    ⟨[("a", ⟨"a", none, some "xs:int", 2⟩), ("b", ⟨"b", none, none, 2⟩)]⟩⟩

/-- The function takes the place of the variable, and the other function is not exported. -/
theorem export_table_overwritten :
    ∃ exports, (mapTrees [variableModule, functionModule]).symbols.scopes.frames
        = #[⟨.reserved, none, exports⟩] ∧
      exports.keys = [⟨"f", some "u"⟩] ∧
      exports.find? ⟨"f", some "u"⟩ = some (.func overwritingFunction) ∧
      ∃ o ∈ [variableModule, functionModule].flatMap Node.occurrences,
        o.Exports (.func overwritingFunction) := by
  obtain ⟨exports, hframes, htable⟩ := export_table [variableModule, functionModule]
  have hbound : (mapTrees [variableModule, functionModule]).symbols.scopes.reserved
      = ⟨[(⟨"f", some "u"⟩, .func overwritingFunction)]⟩ := by decide +kernel
  rw [ScopeTable.reserved, hframes] at hbound
  change exports = _ at hbound
  have hfind : exports.find? ⟨"f", some "u"⟩ = some (.func overwritingFunction) := by
    rw [hbound]
    rfl
  obtain ⟨before, o, after, hsplit, hexports, -⟩ := (htable _ _).1 hfind
  refine ⟨exports, hframes, by rw [hbound]; rfl, hfind, o, ?_, hexports⟩
  rw [hsplit]
  exact List.mem_append_right before List.mem_cons_self

end QueryAudit
