import QueryAudit.Proofs.Resolver.Imported
import QueryAudit.Proofs.Rules.Condition

/-!
# QueryAudit.Proofs.Resolver.Qualifier

The namespace that a qualifier is bound to, said of the nodes that a walk has come to: that
of the last module declaration if it has the qualifier, and else that of the last import
under it.  A name without a colon is taken for a qualifier as a whole.

* `localName_eq_self_iff` — which names are local names;
* `SourceUnit.namespaceOf?_symbolsAfter` — where a name is looked for;
* `declaration?_of_isBlankText` — a blank namespace is none.
-/

namespace QueryAudit

/-! ## unqualified names -/

/-- The sigil hides no colon. -/
theorem not_mem_dropSigil {c : Char} {cs : List Char} (h : c ∉ cs) : c ∉ dropSigil cs := by
  unfold dropSigil
  split
  case h_1 rest => exact fun hc => h (List.mem_cons_of_mem _ hc)
  case h_2 => exact h

/-- **A name without a colon** is its own qualifier, the sigil apart. -/
theorem qualifierOf_unqualified {name : String} (h : ':' ∉ name.toList) :
    SymbolTable.qualifierOf name = localName name := by
  rw [SymbolTable.qualifierOf, localName, cut_eq_none_iff.2 (not_mem_dropSigil h)]

theorem length_dropSigil_le (cs : List Char) : (dropSigil cs).length ≤ cs.length := by
  unfold dropSigil
  split
  · exact Nat.le_succ _
  · exact Nat.le_refl _

/-- **A name** is its own local name when it has no sigil in front and no colon. -/
theorem localName_eq_self_iff {s : String} : localName s = s ↔ IsNamePart s := by
  refine ⟨fun h => ?_, IsNamePart.localName_eq⟩
  have hlength := congrArg (fun name : String => name.toList.length) h
  have hdrop := length_dropSigil_le s.toList
  rw [localName] at hlength
  cases hcut : cut ':' (dropSigil s.toList) with
  | some parts =>
      -- what is behind a colon is shorter than the name
      obtain ⟨before, after⟩ := parts
      rw [eq_append_of_cut hcut, List.length_append, List.length_cons] at hdrop
      simp only [hcut, String.toList_ofList] at hlength
      omega
  | none =>
      have hcolon := cut_eq_none_iff.1 hcut
      simp only [hcut, String.toList_ofList] at hlength
      have hsigil : s.toList.head? ≠ some '$' := by
        intro hhead
        obtain ⟨rest, hrest⟩ := List.head?_eq_some_iff.1 hhead
        simp [hrest, dropSigil] at hlength
      rw [dropSigil_of_head_ne hsigil] at hcolon
      exact ⟨hcolon, hsigil⟩

/-- A name in a blank namespace is a name in none. -/
theorem declaration?_of_isBlankText (t : SymbolTable) (name : String) {uri : String}
    (h : isBlankText uri = true) : t.declaration? name (some uri) = t.declaration? name none := by
  have hproper : properUri (some uri) = none := properUri_eq_none_iff.2 (by simpa using h)
  rw [SymbolTable.declaration?, SymbolTable.symbol?, SymbolKey.make, hproper]
  rfl

/-! ## qualifiers -/

/-- The last module declaration that has been come to, if it has a qualifier. -/
def lastModuleUnder? (qualifier : String) (events : List Event) : Option ModuleIdentity :=
  ((lastEntered? (·.is Kind.moduleDecl) events).map Node.declaredModule).filter
    (·.qualifier = qualifier)

/-- The namespace that a qualifier is bound to by what has been come to. -/
def boundUri? (qualifier : String) (events : List Event) : Option String :=
  ((lastModuleUnder? qualifier events).map ModuleIdentity.uri).or
    (((lastImport? qualifier events).bind Node.declaredImport?).map Import.uri)

/-- Where no module is declared and none is imported, no qualifier is bound. -/
theorem boundUri?_eq_none {events : List Event}
    (h : ∀ d, .enter d ∈ events → d.kind ≠ Kind.moduleDecl ∧ d.kind ≠ Kind.moduleImport)
    (qualifier : String) : boundUri? qualifier events = none := by
  have hnone : ∀ p : Node → Bool, (∀ d, p d = true → d.kind = Kind.moduleDecl ∨
      d.kind = Kind.moduleImport) → lastEntered? p events = none := by
    intro p hp
    rw [lastEntered?, List.getLast?_eq_none_iff, List.filter_eq_nil_iff]
    intro d hd hpd
    obtain ⟨event, hevent, hentered⟩ := List.mem_filterMap.1 hd
    cases event with
    | enter n =>
        cases hentered
        rcases hp d hpd with hkind | hkind
        · exact (h d hevent).1 hkind
        · exact (h d hevent).2 hkind
    | _ => contradiction
  have hmodule : lastEntered? (·.is Kind.moduleDecl) events = none :=
    hnone _ fun d hd => .inl (Node.is_eq_true_iff.1 hd)
  have himport : lastImport? qualifier events = none := by
    rw [lastImport?_eq]
    refine hnone _ fun d hd => .inr (Node.is_eq_true_iff.1 ?_)
    exact (Bool.and_eq_true_iff.1 hd).1
  rw [boundUri?, lastModuleUnder?, hmodule, himport]
  rfl

/-- The module of a unit is the one that was declared last. -/
theorem LocalResolver.module_foldl {r : LocalResolver} (h : r.symbols.module = none)
    {events : List Event} (hallows : Trail.start.Allows events) :
    (events.foldl (fun r event => Resolver.on event r) r).symbols.module
      = (lastEntered? (·.is Kind.moduleDecl) events).map Node.declaredModule := by
  rw [LocalResolver.foldl_lastEntered (·.symbols.module) (fun r n => r.module_enter n)
    (fun r n => r.module_exit n) r hallows, h]
  cases lastEntered? (·.is Kind.moduleDecl) events <;> rfl

/-- The module of a unit goes before its imports. -/
theorem SymbolTable.namespaceOf?_eq_or (t : SymbolTable) (name : String) :
    t.namespaceOf? name
      = ((t.module.filter (·.qualifier = qualifierOf name)).map ModuleIdentity.uri).or
        ((t.import? (qualifierOf name)).map Import.uri) := by
  rw [namespaceOf?, import?]
  cases t.module with
  | none => rfl
  | some m =>
      dsimp only
      rw [Option.filter_some]
      by_cases h : m.qualifier = qualifierOf name <;> simp [h]

/-- **A name** is looked for in the namespace that its qualifier is bound to by the nodes
up to the one that the walk has come to. -/
theorem SourceUnit.namespaceOf?_symbolsAfter {u : SourceUnit} {k : Nat} {n : Node}
    (hk : u.events[k]? = some (.enter n)) (r : LocalResolver) (name : String) :
    (u.symbolsAfter r k).namespaceOf? name
      = boundUri? (SymbolTable.qualifierOf name) (u.events.take (k + 1)) := by
  obtain ⟨before, after, htree, -, hupto⟩ := SourceUnit.events_split hk
  have hallows : Trail.start.Allows (before ++ [.enter n]) :=
    Node.allows_of_events_eq (htree.trans (List.append_cons before _ after))
  rw [SourceUnit.symbolsAfter, hupto, List.foldl_cons, SymbolTable.namespaceOf?_eq_or]
  have hmodule := LocalResolver.module_foldl (r := r.enterSource) rfl hallows
  have himport := LocalResolver.import?_foldl (r := r.enterSource) rfl hallows
    (SymbolTable.qualifierOf name)
  exact congrArg₂ (fun module uri => ((Option.filter _ module).map ModuleIdentity.uri).or uri)
    hmodule (congrArg (Option.map Import.uri) himport)

end QueryAudit
