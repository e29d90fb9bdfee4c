import Mathlib.Data.List.Nodup
import QueryAudit.Analyzer
import QueryAudit.Proofs.Resolver.Lexical
import QueryAudit.Proofs.Resolver.Reserved
import QueryAudit.Proofs.Rules.Extensional

/-!
# QueryAudit.Proofs.Analyzer.Independence

The report on a unit depends on the unit and on the exports of all units, and on
nothing else: not on the other units, not on its place among them, and not on
what the resolver went through before.

* `Follows.agree` — at one moment of a walk equal exports make equal names;
* `analyzeUnit_congr` — the report on one unit after any two histories;
* `analyzeFrom_eq_map` — a run reports on each unit as if it came first;
* `analyze_independent` — the reports of two runs.
-/

namespace QueryAudit

/-! ## two resolvers on one unit -/

section

variable {exports exports' : Keyed SymbolKey Symbol} {r r' : LocalResolver}

/-- The imports depend on the events alone. -/
theorem LocalResolver.imports_foldl (h : r.symbols.imports = r'.symbols.imports)
    (events : List Event) :
    (events.foldl (fun r event => Resolver.on event r) r).symbols.imports
      = (events.foldl (fun r event => Resolver.on event r) r').symbols.imports := by
  induction events generalizing r r' with
  | nil => exact h
  | cons event events ih =>
      apply ih
      cases event with
      | enterSource root => rfl
      | enter n =>
          show (r.enter n).symbols.imports = (r'.enter n).symbols.imports
          rw [LocalResolver.imports_enter, LocalResolver.imports_enter, h]
      | exit n =>
          show (r.exit n).symbols.imports = (r'.exit n).symbols.imports
          rw [LocalResolver.imports_exit, LocalResolver.imports_exit, h]
      | exitSource root => exact h
      | report log => exact h

variable (hfind : ∀ key, exports.find? key = exports'.find? key)
include hfind

/-- At one moment of a walk the same is known of every name when the exports are
the same. -/
theorem Follows.agree {t : Trail} (h : Follows exports t r) (h' : Follows exports' t r')
    (himports : r.symbols.imports = r'.symbols.imports) : r.symbols.Agree r'.symbols where
  lookup_eq key := by rw [h.lookup_eq, h'.lookup_eq, hfind]
  imports_eq := himports
  module_eq := by rw [h.module_eq, h'.module_eq]

/-- When a unit is over, the names that are left are those of the exports. -/
theorem agree_exitSource
    (h : r.symbols.scopes.frames[0]? = some ⟨.reserved, none, exports⟩)
    (h' : r'.symbols.scopes.frames[0]? = some ⟨.reserved, none, exports'⟩)
    (hagree : r.symbols.Agree r'.symbols) :
    r.exitSource.symbols.Agree r'.exitSource.symbols where
  lookup_eq key := by
    simp only [LocalResolver.exitSource, SymbolTable.mapScopes]
    rw [ScopeTable.unwind_of_reserved h, ScopeTable.unwind_of_reserved h',
      ScopeTable.lookup_ofExports, ScopeTable.lookup_ofExports, hfind]
  imports_eq := hagree.imports_eq
  module_eq := hagree.module_eq

theorem agree_foldl_end {root : Node} {log : ProblemLog} {events : List Event}
    (hevents : events ⊆ [.exitSource root, .report log])
    (h : r.symbols.scopes.frames[0]? = some ⟨.reserved, none, exports⟩)
    (h' : r'.symbols.scopes.frames[0]? = some ⟨.reserved, none, exports'⟩)
    (hagree : r.symbols.Agree r'.symbols) :
    (events.foldl (fun r event => Resolver.on event r) r).symbols.Agree
      (events.foldl (fun r event => Resolver.on event r) r').symbols := by
  induction events generalizing r r' with
  | nil => exact hagree
  | cons event events ih =>
      obtain ⟨hevent, hrest⟩ := List.cons_subset.1 hevents
      simp only [List.mem_cons, List.not_mem_nil, or_false] at hevent
      rcases hevent with rfl | rfl
      · exact ih hrest ((LocalResolver.getElem?_zero_exitSource r).trans h)
          ((LocalResolver.getElem?_zero_exitSource r').trans h')
          (agree_exitSource hfind h h' hagree)
      · exact ih hrest h h' hagree

/-- **Two histories**: after each event of a unit the same is known of every name,
whatever the resolvers went through before. -/
theorem agree_events {u : SourceUnit} (hflat : u.tree.mainModulesOutermost = true)
    (h : r.symbols.scopes.frames[0]? = some ⟨.reserved, none, exports⟩)
    (h' : r'.symbols.scopes.frames[0]? = some ⟨.reserved, none, exports'⟩)
    {before after : List Event} (hevents : u.events = before ++ after) (hne : before ≠ []) :
    (before.foldl (fun r event => Resolver.on event r) r).symbols.Agree
      (before.foldl (fun r event => Resolver.on event r) r').symbols := by
  have hwalk : ∀ met rest, u.tree.events = met ++ rest →
      (met.foldl (fun r event => Resolver.on event r) r.enterSource).symbols.Agree
        (met.foldl (fun r event => Resolver.on event r) r'.enterSource).symbols := by
    intro met rest hmet
    have himports : r.enterSource.symbols.imports = r'.enterSource.symbols.imports := rfl
    exact (Follows.walk h hflat hmet).agree hfind (Follows.walk h' hflat hmet)
      (LocalResolver.imports_foldl himports met)
  rcases SourceUnit.events_eq_append hevents with
    rfl | ⟨met, rest, rfl, hmet, -⟩ | ⟨ending, rfl, hending⟩
  · exact absurd rfl hne
  · exact hwalk met rest hmet
  · have htree : u.tree.events = u.tree.events ++ [] := (List.append_nil _).symm
    rw [List.foldl_cons, List.foldl_append, List.foldl_cons, List.foldl_append]
    exact agree_foldl_end hfind hending (Follows.walk h hflat htree).getElem?_zero
      (Follows.walk h' hflat htree).getElem?_zero (hwalk _ [] htree)

end

/-! ## one unit -/

namespace Analyzer

variable {a : Analyzer} {exports exports' : Keyed SymbolKey Symbol} {r r' : LocalResolver}

/-- Walking a unit leaves the exports as they are. -/
theorem getElem?_zero_analyzeUnit {u : SourceUnit} (hflat : u.tree.mainModulesOutermost = true)
    (h : r.symbols.scopes.frames[0]? = some ⟨.reserved, none, exports⟩) :
    (a.analyzeUnit r u).1.symbols.scopes.frames[0]? = some ⟨.reserved, none, exports⟩ := by
  obtain ⟨met, hmet, -, hframe⟩ := LocalResolver.getElem?_zero_process u a.checks h
  have hnone : leaks met = [] :=
    leaks_eq_nil fun s hs => List.all_eq_true.1 hflat s (hmet.subset hs)
  rw [hnone] at hframe
  unfold analyzeUnit
  split
  · exact h
  · cases hprocess : process u r a.checks with
    | mk after issues =>
        rw [hprocess] at hframe
        cases issues with
        | some issues => exact hframe
        | none => exact (LocalResolver.getElem?_zero_exitSource after).trans hframe

/-- **One unit**: with the same exports the report is the same after any history. -/
theorem analyzeUnit_congr (hchecks : ∀ c ∈ a.checks, c.Extensional) {u : SourceUnit}
    (hflat : u.tree.mainModulesOutermost = true)
    (h : r.symbols.scopes.frames[0]? = some ⟨.reserved, none, exports⟩)
    (h' : r'.symbols.scopes.frames[0]? = some ⟨.reserved, none, exports'⟩)
    (hfind : ∀ key, exports.find? key = exports'.find? key) :
    (a.analyzeUnit r u).2 = (a.analyzeUnit r' u).2 := by
  have hissues : (process u r a.checks).2 = (process u r' a.checks).2 := by
    rw [process, process]
    exact congrArg (Option.map IssueLog.issues)
      (runEvents_congr hchecks .empty fun _ _ => agree_events hfind hflat h h')
  unfold analyzeUnit
  split
  · rfl
  · cases hprocess : process u r a.checks with
    | mk after issues =>
        cases hprocess' : process u r' a.checks with
        | mk after' issues' =>
            rw [hprocess, hprocess'] at hissues
            cases hissues
            cases issues <;> rfl

/-! ## many units -/

/-- **A run** reports on each unit as if it were the first, when the reports depend on the
exports alone. -/
theorem analyzeFrom_eq_map {us : List SourceUnit}
    (hflat : ∀ u ∈ us, u.tree.mainModulesOutermost = true) {report : SourceUnit → UnitReport}
    (hreport : ∀ u ∈ us, ∀ r : LocalResolver,
      r.symbols.scopes.frames[0]? = some ⟨.reserved, none, exports⟩ →
        (a.analyzeUnit r u).2 = report u)
    (h : r.symbols.scopes.frames[0]? = some ⟨.reserved, none, exports⟩) :
    a.analyzeFrom r us = us.map report := by
  induction us generalizing r with
  | nil => rfl
  | cons u us ih =>
      have hu := hflat u List.mem_cons_self
      show (a.analyzeUnit r u).2 :: a.analyzeFrom (a.analyzeUnit r u).1 us = _
      rw [List.map_cons, hreport u List.mem_cons_self r h,
        ih (fun v hv => hflat v (List.mem_cons_of_mem u hv))
          (fun v hv => hreport v (List.mem_cons_of_mem u hv)) (getElem?_zero_analyzeUnit hu h)]

/-- The checks of an analysis with the standard rules are those of the rules that the
settings make active, in the order of the catalogue. -/
theorem checks_eq_map {config : Config} (ha : ofRegistry config .standard = .ok a) :
    a.checks = (Registry.standardRules.filter fun rule =>
      Registry.isActive config rule.info).map fun rule => rule.check config := by
  rw [ofRegistry] at ha
  cases hactive : Registry.standard.active config with
  | error e => simp [hactive] at ha
  | ok rules =>
      rw [hactive] at ha
      cases ha
      rw [checks, Registry.eq_filter_of_active hactive]

theorem mem_checks_iff {config : Config} (ha : ofRegistry config .standard = .ok a) {c : Check} :
    c ∈ a.checks ↔ ∃ rule ∈ Registry.standardRules,
      Registry.isActive config rule.info = true ∧ rule.check config = c := by
  rw [checks_eq_map ha, List.mem_map]
  simp only [List.mem_filter, and_assoc]

theorem extensional_checks {config : Config} (ha : ofRegistry config .standard = .ok a) :
    ∀ c ∈ a.checks, c.Extensional := by
  intro c hc
  obtain ⟨rule, hrule, -, rfl⟩ := (mem_checks_iff ha).1 hc
  exact Registry.extensional_of_mem_standardRules hrule config

end Analyzer

/-- What a unit exports; one that nests too deeply exports nothing. -/
def SourceUnit.exports (u : SourceUnit) : List Symbol :=
  if Analyzer.isTooDeep u then [] else exported u.tree.sites

namespace Analyzer

variable {a : Analyzer}

/-- The first pass binds what the units export, in their order. -/
theorem scopes_mapUnits (us : List SourceUnit) :
    (mapUnits us).symbols.scopes
      = .ofExports (bindAll .empty (us.flatMap SourceUnit.exports)) := by
  have hexports : ((us.filter (!isTooDeep ·)).map SourceUnit.tree).flatMap
      (fun root => exported root.sites) = us.flatMap SourceUnit.exports := by
    induction us with
    | nil => rfl
    | cons u us ih =>
        cases hdeep : isTooDeep u with
        | true =>
            rw [List.filter_cons_of_neg (by simp [hdeep]), List.flatMap_cons,
              SourceUnit.exports, if_pos hdeep, List.nil_append, ih]
        | false =>
            rw [List.filter_cons_of_pos (by simp [hdeep]), List.map_cons, List.flatMap_cons,
              List.flatMap_cons, SourceUnit.exports, if_neg (by simp [hdeep]), ih]
  have hmap : mapUnits us = ((us.filter (!isTooDeep ·)).map SourceUnit.tree).foldl
      (fun m root => mapTree root m) .initial := by
    rw [List.foldl_map]
    rfl
  rw [← hexports, hmap]
  exact ExportMapper.scopes_foldl_mapTree _ rfl

theorem getElem?_zero_mapUnits (us : List SourceUnit) :
    (mapUnits us).toLocal.symbols.scopes.frames[0]?
      = some ⟨.reserved, none, (mapUnits us).symbols.scopes.reserved⟩ := by
  rw [ExportMapper.toLocal, scopes_mapUnits]
  rfl

theorem find?_mapUnits (us : List SourceUnit) (key : SymbolKey) :
    (mapUnits us).symbols.scopes.reserved.find? key
      = lastUnder key (us.flatMap SourceUnit.exports) := by
  rw [scopes_mapUnits, ← Option.or_none (o := lastUnder key _)]
  exact find?_bindAll .empty _ key

/-- With the same exports two runs make one report on a unit, wherever it stands. -/
theorem exists_report (hchecks : ∀ c ∈ a.checks, c.Extensional) {us vs : List SourceUnit}
    (hus : ∀ u ∈ us, u.tree.mainModulesOutermost = true)
    (hvs : ∀ v ∈ vs, v.tree.mainModulesOutermost = true)
    (hfind : ∀ key, lastUnder key (us.flatMap SourceUnit.exports)
      = lastUnder key (vs.flatMap SourceUnit.exports)) :
    ∃ report, a.analyze us = us.map report ∧ a.analyze vs = vs.map report := by
  refine ⟨fun u => (a.analyzeUnit (mapUnits us).toLocal u).2, ?_, ?_⟩
  · refine analyzeFrom_eq_map hus (fun u hu r h => ?_) (getElem?_zero_mapUnits us)
    exact analyzeUnit_congr hchecks (hus u hu) h (getElem?_zero_mapUnits us) fun _ => rfl
  · refine analyzeFrom_eq_map hvs (fun u hu r h => ?_) (getElem?_zero_mapUnits vs)
    refine analyzeUnit_congr hchecks (hvs u hu) h (getElem?_zero_mapUnits us) fun key => ?_
    rw [find?_mapUnits, find?_mapUnits, hfind]

end Analyzer

/-! ## exports of many units -/

theorem lastUnder_eq_some_iff {symbols : List Symbol} (hnodup : (symbols.map Symbol.key).Nodup)
    {key : SymbolKey} {s : Symbol} :
    lastUnder key symbols = some s ↔ s ∈ symbols ∧ s.key = key := by
  constructor
  · exact of_lastUnder_eq_some
  · rintro ⟨hs, rfl⟩
    cases hfound : lastUnder s.key symbols with
    | none =>
        have hnone := List.find?_eq_none.1 hfound s (List.mem_reverse.2 hs)
        simp at hnone
    | some found =>
        obtain ⟨hmem, hkey⟩ := of_lastUnder_eq_some hfound
        rw [List.inj_on_of_nodup_map hnodup hmem hs hkey]

/-- The order of symbols does not matter when their keys are distinct. -/
theorem lastUnder_perm {xs ys : List Symbol} (h : xs.Perm ys)
    (hnodup : (xs.map Symbol.key).Nodup) (key : SymbolKey) :
    lastUnder key xs = lastUnder key ys := by
  apply Option.ext
  intro s
  rw [lastUnder_eq_some_iff hnodup, lastUnder_eq_some_iff ((h.map _).nodup_iff.1 hnodup),
    h.mem_iff]

theorem flatMap_exports_filter (us : List SourceUnit) :
    (us.filter (!·.exports.isEmpty)).flatMap SourceUnit.exports
      = us.flatMap SourceUnit.exports := by
  induction us with
  | nil => rfl
  | cons u us ih =>
      cases hexports : u.exports with
      | nil => rw [List.filter_cons_of_neg (by simp [hexports]), ih, List.flatMap_cons, hexports,
          List.nil_append]
      | cons s symbols => rw [List.filter_cons_of_pos (by simp [hexports]), List.flatMap_cons, ih,
          List.flatMap_cons]

/-- Units beside their reports. -/
theorem zip_map_self {α β : Type} (l : List α) (f : α → β) :
    l.zip (l.map f) = l.map fun a => (a, f a) := by
  simpa using List.zip_map' (f := id) (g := f) (l := l)

/-- **Independence of units**: the report on a unit depends on the unit and on what
the first pass binds.  So the reports go with the units when these change places
and no key is exported twice, and units that export nothing can be added or left
out. -/
theorem analyze_independent {config : Config} {a : Analyzer}
    (ha : Analyzer.ofRegistry config .standard = .ok a) {us vs : List SourceUnit}
    (hus : ∀ u ∈ us, u.tree.mainModulesOutermost = true)
    (hvs : ∀ v ∈ vs, v.tree.mainModulesOutermost = true) :
    ((∀ key, (Analyzer.mapUnits us).symbols.scopes.reserved.find? key
          = (Analyzer.mapUnits vs).symbols.scopes.reserved.find? key) →
        ∀ (i j : Nat) (u : SourceUnit), us[i]? = some u → vs[j]? = some u →
          ∃ report, (a.analyze us)[i]? = some report ∧ (a.analyze vs)[j]? = some report) ∧
      (us.Perm vs → ((us.flatMap SourceUnit.exports).map Symbol.key).Nodup →
        (us.zip (a.analyze us)).Perm (vs.zip (a.analyze vs))) ∧
      (us.filter (!·.exports.isEmpty) = vs.filter (!·.exports.isEmpty) →
        ∀ (i j : Nat) (u : SourceUnit), us[i]? = some u → vs[j]? = some u →
          ∃ report, (a.analyze us)[i]? = some report ∧ (a.analyze vs)[j]? = some report) := by
  have hchecks := Analyzer.extensional_checks ha
  have hsame : (∀ key, lastUnder key (us.flatMap SourceUnit.exports)
        = lastUnder key (vs.flatMap SourceUnit.exports)) →
      ∀ (i j : Nat) (u : SourceUnit), us[i]? = some u → vs[j]? = some u →
        ∃ report, (a.analyze us)[i]? = some report ∧ (a.analyze vs)[j]? = some report := by
    intro hfind i j u hi hj
    obtain ⟨report, hreports, hreports'⟩ := Analyzer.exists_report hchecks hus hvs hfind
    have hat : (a.analyze us)[i]? = some (report u) := by
      rw [hreports, List.getElem?_map, hi, Option.map_some]
    have hat' : (a.analyze vs)[j]? = some (report u) := by
      rw [hreports', List.getElem?_map, hj, Option.map_some]
    exact ⟨report u, hat, hat'⟩
  refine ⟨fun hfind => hsame fun key => ?_, fun hperm hnodup => ?_, fun hfilter => hsame ?_⟩
  · rw [← Analyzer.find?_mapUnits, ← Analyzer.find?_mapUnits, hfind]
  · obtain ⟨report, hreports, hreports'⟩ := Analyzer.exists_report hchecks hus hvs
      (lastUnder_perm (hperm.flatMap_right SourceUnit.exports) hnodup)
    rw [hreports, hreports', zip_map_self, zip_map_self]
    exact hperm.map _
  · intro key
    rw [← flatMap_exports_filter us, hfilter, flatMap_exports_filter]

/-- A library module with one function. -/
def libraryUnit : SourceUnit where
  name := "library"
  tree := ⟨⟨"module", none, ⟨1, 0⟩⟩,
    .node ⟨Kind.moduleDecl, none, ⟨1, 0⟩⟩
      (.leaf ⟨"lib", some Field.qualifier, ⟨1, 0⟩⟩ (.leaf ⟨"'urn:lib'", some Field.uri, ⟨1, 0⟩⟩ .nil))
    (.node ⟨Kind.functionDecl, none, ⟨2, 0⟩⟩
      (.leaf ⟨"lib:ready", some Field.name, ⟨2, 0⟩⟩
      (.leaf ⟨"xs:boolean", some Field.type, ⟨2, 0⟩⟩ .nil)) .nil)⟩
  problems := []

/-- A unit that tests a call of that function. -/
def callingUnit : SourceUnit where
  name := "main"
  tree := ⟨⟨"module", none, ⟨1, 0⟩⟩,
    .node ⟨Kind.moduleImport, none, ⟨1, 0⟩⟩
      (.leaf ⟨"lib", some Field.qualifier, ⟨1, 0⟩⟩ (.leaf ⟨"'urn:lib'", some Field.uri, ⟨1, 0⟩⟩ .nil))
    (.node ⟨Kind.ifExpr, none, ⟨2, 0⟩⟩
      (.node ⟨"expr", some Field.condition, ⟨2, 0⟩⟩
        (.node ⟨Kind.relativePathExpr, none, ⟨2, 0⟩⟩
          (.node ⟨Kind.stepExpr, none, ⟨2, 0⟩⟩
            (.node ⟨Kind.functionCall, none, ⟨2, 0⟩⟩
              (.leaf ⟨"lib:ready", some Field.name, ⟨2, 0⟩⟩ .nil) .nil) .nil) .nil) .nil) .nil)⟩
  problems := []

/-- Two units change places, and the one without exports is left out. -/
theorem analyze_independent_libraryUnit : ∃ a, Analyzer.ofRegistry .standard .standard = .ok a ∧
    (∃ report, (a.analyze [libraryUnit, callingUnit])[1]? = some report ∧
      (a.analyze [callingUnit, libraryUnit])[0]? = some report) ∧
    ([libraryUnit, callingUnit].zip (a.analyze [libraryUnit, callingUnit])).Perm
      ([callingUnit, libraryUnit].zip (a.analyze [callingUnit, libraryUnit])) ∧
    ∃ report, (a.analyze [libraryUnit, callingUnit])[0]? = some report ∧
      (a.analyze [libraryUnit])[0]? = some report := by
  refine ⟨_, rfl, ?_⟩
  have hboth : ∀ u ∈ [libraryUnit, callingUnit], u.tree.mainModulesOutermost = true := by
    decide +kernel
  have hswapped : ∀ u ∈ [callingUnit, libraryUnit], u.tree.mainModulesOutermost = true := by
    decide +kernel
  have hbound : (Analyzer.mapUnits [libraryUnit, callingUnit]).symbols.scopes.reserved
      = (Analyzer.mapUnits [callingUnit, libraryUnit]).symbols.scopes.reserved := by
    decide +kernel
  obtain ⟨hsame, hperm, -⟩ := @analyze_independent .standard _ rfl _ _ hboth hswapped
  obtain ⟨-, -, hfilter⟩ := @analyze_independent .standard _ rfl _ [libraryUnit] hboth
    (by decide +kernel)
  exact ⟨hsame (fun key => congrArg (Keyed.find? · key) hbound) 1 0 callingUnit rfl rfl,
    hperm (.swap _ _ _) (by decide +kernel), hfilter (by decide +kernel) 0 0 libraryUnit rfl rfl⟩

end QueryAudit
