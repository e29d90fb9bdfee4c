import QueryAudit.Proofs.Analyzer.UnqualifiedCondition
import QueryAudit.Proofs.Walk.Moment

/-!
# QueryAudit.Proofs.Analyzer.DeclaredCondition

The rule on conditions at a name that its own unit declares.  A declaration is kept under
the local part of its name.  The rule takes the local part of a name that it comes across,
and the look-up takes the local part of that once more, so that a name finds its own
declaration only if its local part is a local name itself.

* `Naming.of_declares` — where a declaration is kept;
* `TestsName.isBoolean_eq` — where the rule looks for it;
* `declared_condition` — which tests of a declared boolean raise a breach.
-/

namespace QueryAudit

open Rules

/-! ## names and what they stand for -/

/-- What a name is the name of. -/
inductive Naming where
  | var
  | func
deriving DecidableEq, Repr

namespace Naming

/-- The name under which a node declares a variable or a function. -/
def declaredName? : Naming → Node → Option String
  | var, d => if d.is Kind.varDecl then d.nameText? else none
  | func, d => if d.is Kind.functionDecl then d.functionName? else none

/-- The name of the first variable or of the first called function in a path. -/
def referredName? : Naming → Node → Option String
  | var, path => (path.preorder.find? (·.is Kind.varRef)).map referenceName
  | func, path =>
    (path.preorder.find? (·.is Kind.functionCall)).bind Node.functionName?

/-- Whether a symbol makes a reference to it a boolean.  A call needs a function. -/
def isBoolean : Naming → Symbol → Bool
  | var, s => s.declaration.hasType booleanType
  | func, s => s.function?.any (·.declaration.hasType booleanType)

/-- **A declaration** in no namespace is kept under the local part of its name, and it is
a boolean as its type says. -/
theorem of_declares {naming : Naming} {d : Node} {q : String} {s : Symbol}
    (hname : naming.declaredName? d = some q) (hs : s ∈ d.declares none) :
    s.key = ⟨localName q, none⟩ ∧ naming.isBoolean s = s.declaration.hasType booleanType := by
  cases naming with
  | var =>
      obtain ⟨hkind, hname⟩ := Option.ite_none_right_eq_some.1 hname
      rw [Node.is_eq_true_iff] at hkind
      have hs : s = .var (.make q none d.declaredType? d.line) := by
        simpa [Node.declares, hkind, Node.declaredVar?, hname] using hs
      subst hs
      exact ⟨rfl, rfl⟩
  | func =>
      obtain ⟨hkind, hname⟩ := Option.ite_none_right_eq_some.1 hname
      rw [Node.is_eq_true_iff] at hkind
      have hs : s = .func ((d.declaredParams fun _ => d.line).foldl Function.addParameter
          (.ofDeclaration (.make q none d.declaredType? d.line))) := by
        simpa [Node.declares, hkind, Node.declaredFunction?, hname] using hs
      subst hs
      exact ⟨congrArg Declaration.key (declaration_foldl_addParameter _ _), rfl⟩

end Naming

/-! ## conditions on one name -/

namespace Rules

/-- An if expression with a condition whose first path has one step and refers to a name. -/
structure TestsName (naming : Naming) (n condition path : Node) (q : String) : Prop where
  kind_eq : n.kind = Kind.ifExpr
  condition_eq : n.nodeByField? Field.condition = some condition
  path_eq : condition.preorder.find? (·.is Kind.relativePathExpr) = some path
  oneStep : (path.childrenByKind Kind.stepExpr).length = 1
  name_eq : naming.referredName? path = some q

/-- Whether a condition is a boolean whatever the name stands for that it refers to. -/
def isBooleanAnyway (symbols : SymbolTable) (condition path : Node) (q : String) : Naming → Bool
  | .var => isBooleanOtherwise symbols condition
  | .func =>
    endsWithAny q booleanFunctions || booleanKinds.any condition.contains
      || (path.find? Kind.varRef).any fun reference =>
        holdsBoolean symbols (referenceName reference)

namespace TestsName

variable {naming : Naming} {n condition path : Node} {q : String}
  (h : TestsName naming n condition path q)
include h

theorem find?_path : condition.find? Kind.relativePathExpr = some path := by
  rw [Node.find?_eq_find?_preorder, h.path_eq]

/-- **The condition** is a boolean if the name stands for one, looked for under the local
part of its local part. -/
theorem isBoolean_eq (symbols : SymbolTable) :
    isBoolean symbols condition
      = (isBooleanAnyway symbols condition path q naming
        || (symbols.scopes.lookup (.make (localName q) (symbols.namespaceOf? q))).any
          naming.isBoolean) := by
  have hname := h.name_eq
  cases naming with
  | var =>
      obtain ⟨reference, hreference, rfl⟩ := Option.map_eq_some_iff.1 hname
      have hrefers : RefersTo n condition path reference :=
        ⟨h.kind_eq, h.condition_eq, h.path_eq, hreference⟩
      rw [hrefers.isBoolean_eq, holdsBoolean, SymbolTable.declaration?, SymbolTable.symbol?,
        Option.any_map]
      rfl
  | func =>
      rw [Naming.referredName?, ← Node.find?_eq_find?_preorder] at hname
      have hcall : singleCall? path = some q := by rw [singleCall?, if_pos h.oneStep, hname]
      have hgives : givesBoolean symbols q
          = ((symbols.scopes.lookup (.make (localName q) (symbols.namespaceOf? q))).any
            (Naming.isBoolean .func) || endsWithAny q booleanFunctions) := by
        rw [givesBoolean, SymbolTable.function?, SymbolTable.symbol?]
        cases symbols.scopes.lookup _ <;> rfl
      simp only [isBoolean, h.find?_path, Option.bind_some, hcall, Option.any_some, hgives,
        isBooleanAnyway]
      ac_rfl

end TestsName

end Rules

/-! ## runs -/

section

variable {u : SourceUnit} {k : Nat} {n : Node} (hk : u.events[k]? = some (.enter n))
  {r : LocalResolver}
include hk

/-- At every node of a unit the frames are a stack. -/
theorem LocalResolver.Reached.isStack_symbolsAfter (h : r.Reached) :
    (u.symbolsAfter r k).scopes.IsStack := by
  obtain ⟨before, after, htree, -, hupto⟩ := SourceUnit.events_split hk
  have hallows : Trail.start.Allows (before ++ [.enter n]) :=
    Node.allows_of_events_eq (htree.trans (List.append_cons before _ after))
  have hwalk := (Grounded.enterSource h.getElem?_zero).foldl Trail.sound_start hallows
  rw [SourceUnit.symbolsAfter, hupto, List.foldl_cons]
  exact hwalk.isStack

/-- In a unit that declares no module and imports none a name is in no namespace. -/
theorem SourceUnit.namespaceOf?_eq_none
    (hlone : ∀ d ∈ u.tree.preorder, d.kind ≠ Kind.moduleDecl ∧ d.kind ≠ Kind.moduleImport)
    (name : String) : (u.symbolsAfter r k).namespaceOf? name = none := by
  rw [SourceUnit.namespaceOf?_symbolsAfter hk]
  exact boundUri?_eq_none (fun d hd => hlone d
    (SourceUnit.enter_mem_events_iff.1 (List.mem_of_mem_take hd))) _

end

/-- **Conditions on declared names**, in any unit of a run that declares no module and imports
none.  Let the walk come to an if expression whose condition has one step and refers to a
name, and let a declaration of a boolean under the same name be visible there.  Then a
run raises a breach there exactly when nothing else makes the condition a boolean, the
local part of the name is no local name itself, and no boolean is visible under the local
part of that; and the report has the issues that are raised. -/
theorem declared_condition {config : Config} {a : Analyzer}
    (ha : Analyzer.ofRegistry config .standard = .ok a)
    (hactive : Registry.isActive config booleanCondition = true) {us : List SourceUnit}
    {i : Nat} {u : SourceUnit} (hu : us[i]? = some u)
    (hlone : ∀ d ∈ u.tree.preorder, d.kind ≠ Kind.moduleDecl ∧ d.kind ≠ Kind.moduleImport)
    {k : Nat} {n condition path : Node} (hk : u.events[k]? = some (.enter n)) {naming : Naming}
    {q : String} (htests : TestsName naming n condition path q) {d : Node}
    (hname : naming.declaredName? d = some q) {s : Symbol} (hs : s ∈ d.declares none)
    (hvisible : (u.symbolsAfter (a.resolverBefore us i) k).scopes.Shows s)
    (hboolean : s.declaration.hasType booleanType = true) :
    ∃ report, (a.analyze us)[i]? = some report ∧
      (∀ rule line, (∃ issue ∈ report.issues, issue.rule = rule ∧ issue.line = line)
        ↔ u.tree.depth ≤ maxDepth ∧
          ∃ k f, a.Raises us i k f ∧ f.rule = rule ∧ max f.line 1 = line) ∧
      ((∃ f, a.Raises us i k f ∧ f.rule = booleanCondition.key) ↔
        isBooleanAnyway (u.symbolsAfter (a.resolverBefore us i) k) condition path q naming = false ∧
        ¬ IsNamePart (localName q) ∧
        ((u.symbolsAfter (a.resolverBefore us i) k).scopes.lookup
          ⟨localName (localName q), none⟩).any naming.isBoolean = false) ∧
      ∀ f, a.Raises us i k f → f.rule = booleanCondition.key → f.line = blamedLine condition := by
  obtain ⟨report, hreport, -, hissues⟩ := Analyzer.exists_issue_iff_le_and_raises ha hu
  obtain ⟨hraises, hline⟩ :=
    raises_condition_iff ha hactive hu hk htests.kind_eq htests.condition_eq
  refine ⟨report, hreport, hissues, ?_, hline⟩
  have hstack := (a.reached_resolverBefore us i).isStack_symbolsAfter hk
  obtain ⟨hkey, hgives⟩ := Naming.of_declares hname hs
  have hfound := ScopeTable.lookup_of_shows hstack hvisible
  rw [hkey] at hfound
  rw [hraises, htests.isBoolean_eq, SourceUnit.namespaceOf?_eq_none hk hlone,
    Bool.or_eq_false_iff]
  refine and_congr_right fun _ => (and_iff_right_of_imp fun hmissed hpart => ?_).symm
  -- a local part that is a local name finds the declaration
  have hmake : SymbolKey.make (localName q) none = ⟨localName q, none⟩ :=
    congrArg (SymbolKey.mk · none) (localName_eq_self_iff.2 hpart)
  rw [hmake, hfound, Option.any_some, hgives, hboolean] at hmissed
  contradiction

/-- An if expression on a path of one step, which is a variable. -/
def stepTest (name : String) (line : UInt32) : Node :=
  ⟨⟨Kind.ifExpr, none, ⟨line, 0⟩⟩,
    .node ⟨"expr", some Field.condition, ⟨line, 0⟩⟩
      (.node ⟨Kind.relativePathExpr, none, ⟨line, 0⟩⟩
        (.node ⟨Kind.stepExpr, none, ⟨line, 0⟩⟩
          (.node ⟨Kind.varRef, none, ⟨line, 0⟩⟩
            (.node ⟨Kind.qName, none, ⟨line, 0⟩⟩ (.leaf ⟨name, none, ⟨line, 0⟩⟩ .nil) .nil)
            .nil) .nil) .nil) .nil⟩

/-- A name with its namespace in braces. -/
def bracedName : String := "Q\x7burn:lib:flags\x7dready"

/-- A unit that declares a boolean under such a name, and tests it. -/
def bracedUnit : SourceUnit where
  name := "main"
  tree := ⟨⟨"module", none, ⟨1, 0⟩⟩,
    .node ⟨Kind.varDecl, none, ⟨2, 0⟩⟩
      (.leaf ⟨bracedName, some Field.name, ⟨2, 0⟩⟩
      (.leaf ⟨"xs:boolean", some Field.type, ⟨2, 0⟩⟩ .nil))
    (.cons (.node (stepTest bracedName 3)) .nil)⟩
  problems := []

/-- The boolean is visible at the test, and still the test has an issue. -/
theorem declared_condition_bracedUnit : ∃ a report,
    Analyzer.ofRegistry .standard .standard = .ok a ∧
    (a.analyze [bracedUnit])[0]? = some report ∧
    (bracedUnit.symbolsAfter (a.resolverBefore [bracedUnit] 0) 4).scopes.Shows
      (.var ⟨"lib:flags\x7dready", none, some "xs:boolean", 2⟩) ∧
    ∃ issue ∈ report.issues, issue.rule = booleanCondition.key ∧ issue.line = 3 := by
  obtain ⟨a, ha⟩ : ∃ a, Analyzer.ofRegistry .standard .standard = .ok a := ⟨_, rfl⟩
  have hu : [bracedUnit][0]? = some bracedUnit := rfl
  have hlone : ∀ d ∈ bracedUnit.tree.preorder,
      d.kind ≠ Kind.moduleDecl ∧ d.kind ≠ Kind.moduleImport := by decide +kernel
  have hk : bracedUnit.events[4]? = some (.enter (stepTest bracedName 3)) := rfl
  have htests : TestsName .var (stepTest bracedName 3) _ _
      ("" ++ bracedName) := ⟨rfl, rfl, rfl, rfl, rfl⟩
  rw [String.empty_append] at htests
  have hvisible : (bracedUnit.symbolsAfter (a.resolverBefore [bracedUnit] 0) 4).scopes.Shows
      (.var ⟨"lib:flags\x7dready", none, some "xs:boolean", 2⟩) := by
    rw [Analyzer.resolverBefore_zero]
    exact ⟨[], bindAll .empty [.var ⟨"lib:flags\x7dready", none, some "xs:boolean", 2⟩], [.empty],
      by decide +kernel, fun _ h => absurd h List.not_mem_nil, by decide +kernel⟩
  have hmissed : ((bracedUnit.symbolsAfter (a.resolverBefore [bracedUnit] 0) 4).scopes.lookup
      ⟨localName (localName bracedName), none⟩).any Naming.var.isBoolean
        = false := by
    rw [Analyzer.resolverBefore_zero]
    decide +kernel
  have hpart : ¬ IsNamePart (localName bracedName) := by
    rw [← localName_eq_self_iff]
    decide +kernel
  have hdeclared : Naming.var.declaredName? ⟨⟨Kind.varDecl, none, ⟨2, 0⟩⟩,
      .leaf ⟨bracedName, some Field.name, ⟨2, 0⟩⟩
      (.leaf ⟨"xs:boolean", some Field.type, ⟨2, 0⟩⟩ .nil)⟩ = some bracedName := by decide +kernel
  obtain ⟨report, hreport, hissues, hraises, hlines⟩ := declared_condition ha rfl hu hlone hk
    htests hdeclared (by decide +kernel) hvisible rfl
  obtain ⟨f, hf, hrule⟩ := hraises.2 ⟨rfl, hpart, hmissed⟩
  have hdepth : bracedUnit.tree.depth ≤ maxDepth := by decide +kernel
  have hissue := (hissues booleanCondition.key 3).2
    ⟨hdepth, 4, f, hf, hrule, by rw [hlines f hf hrule]; rfl⟩
  exact ⟨a, report, ha, hreport, hvisible, hissue⟩

end QueryAudit
