import QueryAudit.Proofs.Analyzer.Raised
import QueryAudit.Proofs.Resolver.Imported
import QueryAudit.Proofs.Rules.Condition

/-!
# QueryAudit.Proofs.Analyzer.ImportedCondition

The rule on conditions across units.  When nothing but a qualified variable can make a
condition a boolean, the declaration of that variable decides, in whichever unit it
stands and wherever that unit stands among the others.

* `TestsVariable.isBoolean_eq` — the condition depends on the variable alone;
* `imported_condition` — a run raises an issue unless the exports declare the variable
  to be a boolean.
-/

namespace QueryAudit

/-! ## conditions on one variable -/

namespace Rules

/-- An if expression with a condition that only its first variable can make a boolean:
there is no call and no expression in it that always gives one. -/
structure TestsVariable (n condition path reference : Node) : Prop where
  kind_eq : n.kind = Kind.ifExpr
  condition_eq : n.nodeByField? Field.condition = some condition
  not_mem_kinds : ∀ d ∈ condition.preorder,
    d.kind ∉ [Kind.functionCall, Kind.comparison, Kind.castable, Kind.treat, Kind.instanceOf]
  path_eq : condition.preorder.find? (·.is Kind.relativePathExpr) = some path
  reference_eq : path.preorder.find? (·.is Kind.varRef) = some reference

namespace TestsVariable

variable {n condition path reference : Node} (h : TestsVariable n condition path reference)
include h

theorem refersTo : RefersTo n condition path reference :=
  ⟨h.kind_eq, h.condition_eq, h.path_eq, h.reference_eq⟩

/-- No step of the path is a call. -/
theorem singleCall?_path : singleCall? path = none := by
  have hcall : path.find? Kind.functionCall = none := by
    rw [Node.find?_eq_none_iff]
    intro d hd hkind
    have hbelow := Node.preorder_subset (List.mem_of_find?_eq_some h.path_eq)
    exact h.not_mem_kinds d (hbelow hd) (by simp [hkind])
  rw [singleCall?, hcall, Option.bind_none, ite_self]

/-- No expression in the condition always gives a boolean. -/
theorem any_booleanKinds : booleanKinds.any condition.contains = false := by
  rw [List.any_eq_false]
  intro kind hkind
  have hnone : condition.find? kind = none := by
    rw [Node.find?_eq_none_iff]
    rintro d hd rfl
    exact h.not_mem_kinds d hd (List.mem_cons_of_mem _ hkind)
  simp [Node.contains, hnone]

theorem isBooleanOtherwise_eq_false (symbols : SymbolTable) :
    isBooleanOtherwise symbols condition = false := by
  rw [isBooleanOtherwise, h.refersTo.find?_path, h.any_booleanKinds]
  simp [h.singleCall?_path]

/-- **The condition** is a boolean exactly when the variable holds one. -/
theorem isBoolean_eq (symbols : SymbolTable) :
    isBoolean symbols condition = holdsBoolean symbols (referenceName reference) := by
  rw [h.refersTo.isBoolean_eq, h.isBooleanOtherwise_eq_false, Bool.false_or]

/-- What the check finds when a walk comes to the expression. -/
theorem getElem?_findings {u : SourceUnit} {k : Nat} (hk : u.events[k]? = some (.enter n))
    (r : LocalResolver) :
    (booleanConditionCheck.findings u.name (views r u.events))[k]?
      = some (if holdsBoolean
            ((u.events.take (k + 1)).foldl (fun r event => Resolver.on event r) r).symbols
            (referenceName reference) then []
          else [booleanCondition.finding reference.line
            "The if condition is not a boolean expression, make the test explicit"]) := by
  rw [h.refersTo.getElem?_findings hk, h.isBoolean_eq]
  rfl

end TestsVariable

end Rules

open Rules

/-! ## the symbols at an expression -/

section

variable {u : SourceUnit} {r : LocalResolver} {exports : Keyed SymbolKey Symbol}

/-- **In a unit without a module declaration** a variable that is imported holds a boolean
when the exports say so. -/
theorem holdsBoolean_imported
    (hreserved : r.symbols.scopes.frames[0]? = some ⟨.reserved, none, exports⟩)
    (hflat : u.tree.mainModulesOutermost = true)
    (hmodule : ∀ d ∈ u.tree.preorder, d.kind ≠ Kind.moduleDecl) {k : Nat} {n : Node}
    (hk : u.events[k]? = some (.enter n)) (hkind : n.kind ≠ Kind.moduleImport)
    {name qualifier localPart uri : String} (hname : Spells name qualifier localPart)
    (hqualifier : IsNamePart qualifier) (hlocal : IsNamePart localPart)
    (huri : isBlankText uri = false)
    (himport : (lastImport? qualifier (u.events.take k)).bind (·.unquotedField? Field.uri)
      = some uri) :
    holdsBoolean
        ((u.events.take (k + 1)).foldl (fun r event => Resolver.on event r) r).symbols name
      = (exports.find? ⟨localPart, some uri⟩).any (·.declaration.hasType booleanType) := by
  obtain ⟨before, after, htree, hbefore, hupto⟩ := SourceUnit.events_split hk
  have hfollows := Follows.entering hreserved hflat htree
  have hentered : ∀ s ∈ ((before.foldl Trail.on .start).enter n).entered,
      s.node.is Kind.moduleDecl = false := by
    intro s hs
    simpa [Node.is] using hmodule s.node (Trail.node_mem_preorder htree hs)
  have hother : n.importsUnder qualifier = false := by
    simp [Node.importsUnder, Node.is, hkind]
  have hstated : (lastImport? qualifier before).bind (·.unquotedField? Field.uri) = some uri := by
    rw [← himport, hbefore]
    rfl
  have hbound : (((before ++ [Event.enter n]).foldl (fun r event => Resolver.on event r)
      r.enterSource).symbols.import? qualifier).map Import.uri = some uri := by
    rw [r.import?_entering htree hother]
    exact uri_lastImport? hstated
  have hdeclaration := hfollows.declaration?_imported hentered hname hqualifier hlocal huri hbound
  rw [hupto, List.foldl_cons, holdsBoolean]
  refine (congrArg (Option.any _) hdeclaration).trans ?_
  rw [Option.any_map]

end

/-! ## runs -/

/-- **A run** raises a breach at a condition exactly when it is not known to be a boolean
there, and it blames the line of the condition. -/
theorem Rules.raises_condition_iff {config : Config} {a : Analyzer}
    (ha : Analyzer.ofRegistry config .standard = .ok a)
    (hactive : Registry.isActive config booleanCondition = true) {us : List SourceUnit}
    {i : Nat} {u : SourceUnit} (hu : us[i]? = some u) {k : Nat} {n condition : Node}
    (hk : u.events[k]? = some (.enter n)) (hkind : n.kind = Kind.ifExpr)
    (hcondition : n.nodeByField? Field.condition = some condition) :
    ((∃ f, a.Raises us i k f ∧ f.rule = booleanCondition.key) ↔
        isBoolean (u.symbolsAfter (a.resolverBefore us i) k) condition = false) ∧
      ∀ f, a.Raises us i k f → f.rule = booleanCondition.key → f.line = blamedLine condition := by
  have hstandard : ⟨booleanCondition, fun _ => booleanConditionCheck⟩ ∈ Registry.standardRules := by
    simp [Registry.standardRules]
  have hraises := fun f => Analyzer.raises_iff ha hstandard hactive hu (k := k) (f := f)
  simp only [getElem?_findings_condition hk hkind hcondition] at hraises
  constructor
  · simp only [hraises]
    cases isBoolean (u.symbolsAfter (a.resolverBefore us i) k) condition <;> simp
  · intro f hf hkey
    obtain ⟨found, hfound, hmem⟩ := (hraises f).1 ⟨hf, hkey⟩
    cases hfound
    split at hmem
    · exact absurd hmem List.not_mem_nil
    · rw [List.mem_singleton.1 hmem]
      rfl

/-- At a condition that refers to a variable a run blames the line of the variable. -/
theorem Rules.RefersTo.raises_iff {config : Config} {a : Analyzer}
    (ha : Analyzer.ofRegistry config .standard = .ok a)
    (hactive : Registry.isActive config booleanCondition = true) {us : List SourceUnit}
    {i : Nat} {u : SourceUnit} (hu : us[i]? = some u) {k : Nat} {n condition path reference : Node}
    (hk : u.events[k]? = some (.enter n)) (hrefers : RefersTo n condition path reference) :
    ((∃ f, a.Raises us i k f ∧ f.rule = booleanCondition.key) ↔
        isBoolean (u.symbolsAfter (a.resolverBefore us i) k) condition = false) ∧
      ∀ f, a.Raises us i k f → f.rule = booleanCondition.key → f.line = reference.line := by
  rw [← hrefers.blamedLine_eq]
  exact raises_condition_iff ha hactive hu hk hrefers.kind_eq hrefers.condition_eq

/-- **Conditions on imported variables**, in any order of the units.  In a unit without a
module declaration let the walk come to an if expression that only a qualified variable
can make boolean, and let the last import of its qualifier state a namespace.  Then a
run raises a breach there, at the line of the variable, unless the last symbol that the
units export under the name and the namespace is declared as a boolean; and the report
has the issues that are raised. -/
theorem imported_condition {config : Config} {a : Analyzer}
    (ha : Analyzer.ofRegistry config .standard = .ok a)
    (hactive : Registry.isActive config booleanCondition = true) {us : List SourceUnit}
    (hus : ∀ u ∈ us, u.tree.depth ≤ maxDepth ∧ u.tree.mainModulesOutermost = true)
    {i : Nat} {u : SourceUnit} (hu : us[i]? = some u)
    (hmodule : ∀ d ∈ u.tree.preorder, d.kind ≠ Kind.moduleDecl)
    {qualifier localPart uri : String} (hqualifier : IsNamePart qualifier)
    (hlocal : IsNamePart localPart) (huri : isBlankText uri = false)
    {k : Nat} {n condition path reference : Node} (hk : u.events[k]? = some (.enter n))
    (htests : TestsVariable n condition path reference)
    (hname : Spells (referenceName reference) qualifier localPart)
    (himport : (lastImport? qualifier (u.events.take k)).bind (·.unquotedField? Field.uri)
      = some uri) :
    ∃ report, (a.analyze us)[i]? = some report ∧ report.failed = false ∧
      (∀ rule line, (∃ issue ∈ report.issues, issue.rule = rule ∧ issue.line = line)
        ↔ ∃ k f, a.Raises us i k f ∧ f.rule = rule ∧ max f.line 1 = line) ∧
      ((∃ f, a.Raises us i k f ∧ f.rule = booleanCondition.key) ↔
        ¬ (lastUnder ⟨localPart, some uri⟩ (us.flatMap fun u => exported u.tree.sites)).any
          (·.declaration.hasType booleanType) = true) ∧
      ∀ f, a.Raises us i k f → f.rule = booleanCondition.key → f.line = reference.line := by
  have hdepth := (hus u (List.mem_of_getElem? hu)).1
  have hflat := (hus u (List.mem_of_getElem? hu)).2
  have hkind : n.kind ≠ Kind.moduleImport := by
    rw [htests.kind_eq]
    decide
  have hreserved := Analyzer.getElem?_zero_resolverBefore (a := a) (fun u hu => (hus u hu).2) i
  have hholds := holdsBoolean_imported hreserved hflat hmodule hk hkind hname hqualifier hlocal
    huri himport
  rw [Analyzer.find?_mapUnits, Analyzer.flatMap_exports fun u hu => (hus u hu).1] at hholds
  obtain ⟨hraises, hline⟩ := htests.refersTo.raises_iff ha hactive hu hk
  obtain ⟨report, hreport, hfailed, hissues⟩ := Analyzer.exists_issue_iff_raises ha hu hdepth
  refine ⟨report, hreport, hfailed, hissues, ?_, hline⟩
  rw [hraises, htests.isBoolean_eq, Bool.not_eq_true]
  exact Eq.congr_left hholds

/-- An if expression on one variable. -/
def variableTest (name : String) (line : UInt32) : Node :=
  ⟨⟨Kind.ifExpr, none, ⟨line, 0⟩⟩,
    .node ⟨"expr", some Field.condition, ⟨line, 0⟩⟩
      (.node ⟨Kind.relativePathExpr, none, ⟨line, 0⟩⟩
        (.node ⟨Kind.varRef, none, ⟨line, 0⟩⟩
          (.node ⟨Kind.qName, none, ⟨line, 0⟩⟩ (.leaf ⟨name, none, ⟨line, 0⟩⟩ .nil) .nil)
          .nil) .nil) .nil⟩

theorem testsVariable_variableTest (name : String) (line : UInt32) :
    ∃ condition path reference, TestsVariable (variableTest name line) condition path reference ∧
      referenceName reference = name ∧ reference.line = line := by
  have hname : referenceName ⟨⟨Kind.varRef, none, ⟨line, 0⟩⟩,
      .node ⟨Kind.qName, none, ⟨line, 0⟩⟩ (.leaf ⟨name, none, ⟨line, 0⟩⟩ .nil) .nil⟩ = name :=
    String.empty_append
  exact ⟨_, _, _, ⟨rfl, rfl, by simp +decide [Node.preorder, Forest.preorder], rfl, rfl⟩,
    hname, rfl⟩

/-- A unit that imports a library and tests two of its variables. -/
def testingUnit : SourceUnit where
  name := "main"
  tree := ⟨⟨"module", none, ⟨1, 0⟩⟩,
    .node ⟨Kind.moduleImport, none, ⟨1, 0⟩⟩
      (.leaf ⟨"lib", some Field.qualifier, ⟨1, 0⟩⟩
      (.leaf ⟨"'urn:lib'", some Field.uri, ⟨1, 0⟩⟩ .nil))
    (.cons (.node (variableTest "lib:flag" 2)) (.cons (.node (variableTest "lib:size" 3)) .nil))⟩
  problems := []

/-- The library: the first variable is declared as a boolean, without the prefix. -/
def flagLibrary : SourceUnit where
  name := "library"
  tree := ⟨⟨"module", none, ⟨1, 0⟩⟩,
    .node ⟨Kind.moduleDecl, none, ⟨1, 0⟩⟩
      (.leaf ⟨"l", some Field.qualifier, ⟨1, 0⟩⟩
      (.leaf ⟨"\"urn:lib\"", some Field.uri, ⟨1, 0⟩⟩ .nil))
    (.node ⟨Kind.varDecl, none, ⟨2, 0⟩⟩
      (.leaf ⟨"$flag", some Field.name, ⟨2, 0⟩⟩
      (.leaf ⟨"xs:boolean", some Field.type, ⟨2, 0⟩⟩ .nil))
    (.node ⟨Kind.varDecl, none, ⟨3, 0⟩⟩
      (.leaf ⟨"$l:size", some Field.name, ⟨3, 0⟩⟩
      (.leaf ⟨"xs:integer", some Field.type, ⟨3, 0⟩⟩ .nil)) .nil))⟩
  problems := []

/-- The unit comes before its library.  The test of the boolean is fine, and the other
one has an issue. -/
theorem imported_condition_testingUnit : ∃ a report,
    Analyzer.ofRegistry .standard .standard = .ok a ∧
    (a.analyze [testingUnit, flagLibrary])[0]? = some report ∧
    (¬ ∃ f, a.Raises [testingUnit, flagLibrary] 0 4 f ∧ f.rule = booleanCondition.key) ∧
    (∃ f, a.Raises [testingUnit, flagLibrary] 0 14 f ∧ f.rule = booleanCondition.key) ∧
    ∃ issue ∈ report.issues, issue.rule = booleanCondition.key ∧ issue.line = 3 := by
  obtain ⟨a, ha⟩ : ∃ a, Analyzer.ofRegistry .standard .standard = .ok a := ⟨_, rfl⟩
  have hus : ∀ u ∈ [testingUnit, flagLibrary],
      u.tree.depth ≤ maxDepth ∧ u.tree.mainModulesOutermost = true := by decide +kernel
  have hu : [testingUnit, flagLibrary][0]? = some testingUnit := rfl
  have hmodule : ∀ d ∈ testingUnit.tree.preorder, d.kind ≠ Kind.moduleDecl := by decide +kernel
  have huri : isBlankText "urn:lib" = false := by decide
  have hlib : IsNamePart "lib" := ⟨by decide, by decide⟩
  have hflag : IsNamePart "flag" := ⟨by decide, by decide⟩
  have hsize : IsNamePart "size" := ⟨by decide, by decide⟩
  obtain ⟨_, _, _, htests, hname, -⟩ := testsVariable_variableTest "lib:flag" 2
  obtain ⟨_, _, _, htests', hname', hline⟩ := testsVariable_variableTest "lib:size" 3
  have hk : testingUnit.events[4]? = some (.enter (variableTest "lib:flag" 2)) := rfl
  have hk' : testingUnit.events[14]? = some (.enter (variableTest "lib:size" 3)) := rfl
  obtain ⟨report, hreport, -, -, hraises, -⟩ := imported_condition ha rfl hus hu hmodule hlib hflag
    huri hk htests (.inl hname) rfl
  obtain ⟨_, hreport', -, hissues, hraises', hlines⟩ := imported_condition ha rfl hus hu hmodule
    hlib hsize huri hk' htests' (.inl hname') rfl
  cases hreport.symm.trans hreport'
  obtain ⟨f, hf, hrule⟩ := hraises'.2 (by decide +kernel)
  have hissue := (hissues booleanCondition.key 3).2
    ⟨14, f, hf, hrule, by rw [hlines f hf hrule, hline]; rfl⟩
  exact ⟨a, report, ha, hreport, fun h => hraises.1 h (by decide +kernel), ⟨f, hf, hrule⟩, hissue⟩

end QueryAudit
