import QueryAudit.Proofs.Analyzer.ImportedCondition
import QueryAudit.Proofs.Resolver.Qualifier

/-!
# QueryAudit.Proofs.Analyzer.UnqualifiedCondition

The rule on conditions at a variable without a qualifier.  The name of the variable is
taken for a qualifier as well, so that a module declaration or an import under that very
name sends the rule to look for the variable in another namespace.

* `holdsBoolean_unqualified` — where the rule looks for the variable;
* `unqualified_condition` — which tests of a boolean in no namespace raise a breach.
-/

namespace QueryAudit

open Rules

section

variable {u : SourceUnit} {k : Nat} {n : Node} (hk : u.events[k]? = some (.enter n))
  (r : LocalResolver) {name : String} (hname : ':' ∉ name.toList)
include hk hname

/-- **A variable without a qualifier** is looked for in the namespace that its own name is
bound to as a qualifier. -/
theorem holdsBoolean_unqualified :
    holdsBoolean (u.symbolsAfter r k) name
      = ((u.symbolsAfter r k).declaration? (localName name)
          (boundUri? (localName name) (u.events.take (k + 1)))).any (·.hasType booleanType) := by
  rw [holdsBoolean, SourceUnit.namespaceOf?_symbolsAfter hk, qualifierOf_unqualified hname]

/-- A boolean in no namespace is missed exactly when its name is bound to a namespace in
which there is no boolean of that name. -/
theorem holdsBoolean_unqualified_eq_false_iff {d : Declaration}
    (hvisible : (u.symbolsAfter r k).declaration? (localName name) none = some d)
    (hboolean : d.hasType booleanType = true) :
    holdsBoolean (u.symbolsAfter r k) name = false ↔
      ∃ uri, boundUri? (localName name) (u.events.take (k + 1)) = some uri ∧
        isBlankText uri = false ∧
        ((u.symbolsAfter r k).declaration? (localName name) (some uri)).any
          (·.hasType booleanType) = false := by
  rw [holdsBoolean_unqualified hk r hname]
  cases boundUri? (localName name) (u.events.take (k + 1)) with
  | none => simp [hvisible, hboolean]
  | some uri =>
      cases hblank : isBlankText uri with
      | true => simp [declaration?_of_isBlankText _ _ hblank, hvisible, hboolean, hblank]
      | false => simp [hblank]

end

/-- **Conditions on unqualified variables**, in any unit of a run and whatever it imports and
declares.  Let the walk come to an if expression whose condition refers to a variable
without a qualifier, and let what is visible under its name in no namespace be declared as
a boolean.  Then a run raises a breach there exactly when nothing else makes the condition
a boolean and the name of the variable is also a qualifier, bound to a namespace in which
no boolean is visible under that name; and the report has the issues that are raised. -/
theorem unqualified_condition {config : Config} {a : Analyzer}
    (ha : Analyzer.ofRegistry config .standard = .ok a)
    (hactive : Registry.isActive config booleanCondition = true) {us : List SourceUnit}
    {i : Nat} {u : SourceUnit} (hu : us[i]? = some u) {k : Nat} {n condition path reference : Node}
    (hk : u.events[k]? = some (.enter n)) (hrefers : RefersTo n condition path reference)
    (hname : ':' ∉ (referenceName reference).toList) {d : Declaration}
    (hvisible : (u.symbolsAfter (a.resolverBefore us i) k).declaration?
      (localName (referenceName reference)) none = some d)
    (hboolean : d.hasType booleanType = true) :
    ∃ report, (a.analyze us)[i]? = some report ∧
      (∀ rule line, (∃ issue ∈ report.issues, issue.rule = rule ∧ issue.line = line)
        ↔ u.tree.depth ≤ maxDepth ∧
          ∃ k f, a.Raises us i k f ∧ f.rule = rule ∧ max f.line 1 = line) ∧
      ((∃ f, a.Raises us i k f ∧ f.rule = booleanCondition.key) ↔
        isBooleanOtherwise (u.symbolsAfter (a.resolverBefore us i) k) condition = false ∧
        ∃ uri, boundUri? (localName (referenceName reference)) (u.events.take (k + 1))
            = some uri ∧
          isBlankText uri = false ∧
          ((u.symbolsAfter (a.resolverBefore us i) k).declaration?
            (localName (referenceName reference)) (some uri)).any (·.hasType booleanType)
              = false) ∧
      ∀ f, a.Raises us i k f → f.rule = booleanCondition.key → f.line = reference.line := by
  obtain ⟨hraises, hline⟩ := hrefers.raises_iff ha hactive hu hk
  obtain ⟨report, hreport, -, hissues⟩ := Analyzer.exists_issue_iff_le_and_raises ha hu
  refine ⟨report, hreport, hissues, ?_, hline⟩
  rw [hraises, hrefers.isBoolean_eq, Bool.or_eq_false_iff,
    holdsBoolean_unqualified_eq_false_iff hk _ hname hvisible hboolean]

/-- A unit that imports a module under a qualifier and tests its own boolean of the same
name. -/
def shadowedUnit : SourceUnit where
  name := "main"
  tree := ⟨⟨"module", none, ⟨1, 0⟩⟩,
    .node ⟨Kind.moduleImport, none, ⟨1, 0⟩⟩
      (.leaf ⟨"flag", some Field.qualifier, ⟨1, 0⟩⟩
      (.leaf ⟨"'urn:flags'", some Field.uri, ⟨1, 0⟩⟩ .nil))
    (.node ⟨Kind.varDecl, none, ⟨2, 0⟩⟩
      (.leaf ⟨"$flag", some Field.name, ⟨2, 0⟩⟩
      (.leaf ⟨"xs:boolean", some Field.type, ⟨2, 0⟩⟩ .nil))
    (.cons (.node (variableTest "flag" 3)) .nil))⟩
  problems := []

/-- The boolean is visible at the test, and still the test has an issue. -/
theorem unqualified_condition_shadowedUnit : ∃ a report,
    Analyzer.ofRegistry .standard .standard = .ok a ∧
    (a.analyze [shadowedUnit])[0]? = some report ∧
    (shadowedUnit.symbolsAfter (a.resolverBefore [shadowedUnit] 0) 6).declaration? "flag" none
      = some ⟨"flag", none, some "xs:boolean", 2⟩ ∧
    ∃ issue ∈ report.issues, issue.rule = booleanCondition.key ∧ issue.line = 3 := by
  obtain ⟨a, ha⟩ : ∃ a, Analyzer.ofRegistry .standard .standard = .ok a := ⟨_, rfl⟩
  obtain ⟨condition, path, reference, htests, hname, hline⟩ := testsVariable_variableTest "flag" 3
  have hlocal : localName (referenceName reference) = "flag" := by
    rw [hname]
    decide
  have hvisible : (shadowedUnit.symbolsAfter (a.resolverBefore [shadowedUnit] 0) 6).declaration?
      "flag" none = some ⟨"flag", none, some "xs:boolean", 2⟩ := by
    rw [Analyzer.resolverBefore_zero]
    decide +kernel
  have hforeign : ((shadowedUnit.symbolsAfter (a.resolverBefore [shadowedUnit] 0) 6).declaration?
      "flag" (some "urn:flags")).any (·.hasType booleanType) = false := by
    rw [Analyzer.resolverBefore_zero]
    decide +kernel
  have hu : [shadowedUnit][0]? = some shadowedUnit := rfl
  have hk : shadowedUnit.events[6]? = some (.enter (variableTest "flag" 3)) := rfl
  obtain ⟨report, hreport, hissues, hraises, hlines⟩ := unqualified_condition ha rfl hu hk
    htests.refersTo (by rw [hname]; decide) (by rw [hlocal]; exact hvisible) rfl
  rw [hlocal] at hraises
  obtain ⟨f, hf, hrule⟩ := hraises.2 ⟨htests.isBooleanOtherwise_eq_false _, "urn:flags",
    by decide +kernel, by decide, hforeign⟩
  have hdepth : shadowedUnit.tree.depth ≤ maxDepth := by decide +kernel
  have hissue := (hissues booleanCondition.key 3).2
    ⟨hdepth, 6, f, hf, hrule, by rw [hlines f hf hrule, hline]; rfl⟩
  exact ⟨a, report, ha, hreport, hvisible, hissue⟩

end QueryAudit
