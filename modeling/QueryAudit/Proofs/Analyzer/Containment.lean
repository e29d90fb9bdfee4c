import QueryAudit.Proofs.Analyzer.Raised
import QueryAudit.Proofs.Walk.Crash

/-!
# QueryAudit.Proofs.Analyzer.Containment

A unit that fails does so alone.  Each unit starts from the exports, whatever became of the
units before it, so that a crash at any event of a unit leaves no trace in the reports on
the others.  Nothing is assumed of the checks.

* `LocalResolver.enterSource_eq`, `LocalResolver.recover_eq` — what a unit starts from, and
  what is left of it after a crash;
* `analyzeUnit_cases` — the three ways in which the analysis of a unit can go;
* `analyzeFrom_eq_map_toLocal` — the report on a unit when other units can crash;
* `failure_contained` — which units fail, and that they do so alone.
-/

namespace QueryAudit

namespace LocalResolver

variable {r : LocalResolver} {exports : Keyed SymbolKey Symbol}
  (h : r.symbols.scopes.frames[0]? = some ⟨.reserved, none, exports⟩)
include h

/-- A unit starts from the exports alone. -/
theorem enterSource_eq :
    r.enterSource = ⟨⟨(ScopeTable.ofExports exports).push .source, .empty, none⟩, []⟩ := by
  rw [enterSource, SymbolTable.mapScopes, SymbolTable.resetUnit]
  dsimp only
  rw [ScopeTable.unwind_of_reserved h]

/-- Nothing but the exports is left when a unit is forgotten. -/
theorem recover_eq : r.recover = ⟨⟨.ofExports exports, .empty, none⟩, []⟩ := by
  rw [recover, SymbolTable.mapScopes, SymbolTable.resetUnit]
  dsimp only
  rw [ScopeTable.unwind_of_reserved h]

/-- When no main module stands in a node that opens a frame, the exports are the same after
any of the events of a unit. -/
theorem getElem?_zero_foldl_of_flat {u : SourceUnit} (hflat : u.tree.mainModulesOutermost = true)
    {met : List Event} (hmet : met <+: u.events) :
    (met.foldl (fun r event => Resolver.on event r) r).symbols.scopes.frames[0]?
      = some ⟨.reserved, none, exports⟩ := by
  obtain ⟨rest, hevents⟩ := hmet
  obtain ⟨sites, hsites, -, hframe⟩ := getElem?_zero_foldl hevents.symm h
  have hnone : leaks sites = [] :=
    leaks_eq_nil fun s hs => List.all_eq_true.1 hflat s (hsites.subset hs)
  rw [hframe, hnone]
  rfl

end LocalResolver

/-- Where a unit starts from decides all that becomes of it. -/
theorem process_congr {u : SourceUnit} {r r' : LocalResolver} (h : r.enterSource = r'.enterSource)
    (checks : List Check) : process u r checks = process u r' checks := by
  have hon : Resolver.on (.enterSource u.tree) r = Resolver.on (.enterSource u.tree) r' := h
  rw [process, process, SourceUnit.events_eq, runEvents, runEvents, hon]

namespace Analyzer

/-! ## one unit -/

/-- **A unit** is passed over because it nests too deeply, or it is walked to its end, or one
of the checks crashes at one of its events and the resolver forgets it. -/
theorem analyzeUnit_cases (a : Analyzer) (r : LocalResolver) (u : SourceUnit) :
    (maxDepth < u.tree.depth ∧ a.analyzeUnit r u = (r, .failure u)) ∨
      (u.tree.depth ≤ maxDepth ∧ ¬ u.Crashes r a.checks ∧
        ∃ after issues, process u r a.checks = (after, some issues) ∧
          a.analyzeUnit r u = (after, ⟨u.name, issues, false⟩)) ∨
      (u.tree.depth ≤ maxDepth ∧ u.Crashes r a.checks ∧
        ∀ met, met <+: u.events → CrashesAfter u.name r a.checks .empty met →
          a.analyzeUnit r u
            = ((met.foldl (fun r event => Resolver.on event r) r).recover, .failure u)) := by
  rcases Nat.lt_or_ge maxDepth u.tree.depth with hdeep | hdepth
  · exact Or.inl ⟨hdeep, analyzeUnit_of_lt_depth a hdeep r⟩
  · have hshallow := isTooDeep_eq_false hdepth
    cases hprocess : process u r a.checks with
    | mk after issues =>
        cases issues with
        | some issues =>
            refine Or.inr (Or.inl ⟨hdepth, ?_, after, issues, rfl, ?_⟩)
            · rintro ⟨met, hmet, hcrash⟩
              have hnone := process_eq_none_iff.2 ⟨met, hmet, hcrash, rfl⟩
              cases hprocess.symm.trans hnone
            · rw [analyzeUnit, hshallow, hprocess]
              rfl
        | none =>
            obtain ⟨met, hmet, hcrash, -⟩ := process_eq_none_iff.1 hprocess
            refine Or.inr (Or.inr ⟨hdepth, ⟨met, hmet, hcrash⟩, ?_⟩)
            intro met hmet hcrash
            rw [analyzeUnit, hshallow, process_eq_none_iff.2 ⟨met, hmet, hcrash, rfl⟩]
            rfl

/-- A unit fails when it nests too deeply or a check crashes, and then it has no issues. -/
theorem failed_analyzeUnit (a : Analyzer) (r : LocalResolver) (u : SourceUnit) :
    ((a.analyzeUnit r u).2.failed = true ↔ maxDepth < u.tree.depth ∨ u.Crashes r a.checks) ∧
      ((a.analyzeUnit r u).2.failed = true → (a.analyzeUnit r u).2.issues = []) := by
  rcases a.analyzeUnit_cases r u with
    ⟨hdeep, hunit⟩ | ⟨hdepth, hnone, after, issues, -, hunit⟩ | ⟨-, hcrashes, hunit⟩
  · rw [hunit]
    exact ⟨iff_of_true rfl (Or.inl hdeep), fun _ => rfl⟩
  · rw [hunit]
    refine ⟨iff_of_false Bool.false_ne_true ?_, nofun⟩
    exact not_or.2 ⟨Nat.not_lt.2 hdepth, hnone⟩
  · obtain ⟨met, hmet, hcrash⟩ := hcrashes
    rw [hunit met hmet hcrash]
    exact ⟨iff_of_true rfl (Or.inr ⟨met, hmet, hcrash⟩), fun _ => rfl⟩

/-- The report on a unit depends on the exports and on nothing else that is known before. -/
theorem analyzeUnit_snd_congr (a : Analyzer) {r r' : LocalResolver}
    {exports : Keyed SymbolKey Symbol}
    (h : r.symbols.scopes.frames[0]? = some ⟨.reserved, none, exports⟩)
    (h' : r'.symbols.scopes.frames[0]? = some ⟨.reserved, none, exports⟩) (u : SourceUnit) :
    (a.analyzeUnit r u).2 = (a.analyzeUnit r' u).2 := by
  -- not only look-ups but the whole tables agree, so that no check can tell the two apart
  have hsource : r.enterSource = r'.enterSource := by
    rw [LocalResolver.enterSource_eq h, LocalResolver.enterSource_eq h']
  unfold analyzeUnit
  split
  · rfl
  · rw [process_congr hsource]

/-! ## many units -/

/-- **A run** reports on each unit as if it were the first, whatever the checks do. -/
theorem analyzeFrom_eq_map_toLocal (a : Analyzer) {us : List SourceUnit}
    (hflat : ∀ u ∈ us, u.tree.mainModulesOutermost = true) (all : List SourceUnit) :
    a.analyzeFrom (mapUnits all).toLocal us
      = us.map fun u => (a.analyzeUnit (mapUnits all).toLocal u).2 :=
  analyzeFrom_eq_map hflat
    (fun u _ _ h => a.analyzeUnit_snd_congr h (getElem?_zero_mapUnits all) u)
    (getElem?_zero_mapUnits all)

/-- Units that nest too deeply take no part in the first pass. -/
theorem mapUnits_filter (us : List SourceUnit) :
    mapUnits (us.filter (·.tree.depth ≤ maxDepth)) = mapUnits us := by
  have hpass : us.filter (fun u => !isTooDeep u && decide (u.tree.depth ≤ maxDepth))
      = us.filter (!isTooDeep ·) := by
    refine List.filter_congr fun u _ => ?_
    rw [isTooDeep, Node.depthByStack_eq_depth]
    simp
  rw [mapUnits, List.filter_filter, hpass, mapUnits]

theorem resolverBefore_succ (a : Analyzer) {us : List SourceUnit} {i : Nat} {u : SourceUnit}
    (hu : us[i]? = some u) :
    a.resolverBefore us (i + 1) = (a.analyzeUnit (a.resolverBefore us i) u).1 := by
  rw [resolverBefore, List.take_add_one, hu, Option.toList_some, List.foldl_append]
  rfl

/-- The units of a run that do not fail, with their reports. -/
def healthy (a : Analyzer) (us : List SourceUnit) : List (SourceUnit × UnitReport) :=
  (us.zip (a.analyze us)).filter (!·.2.failed)

/-- **The healthy units** get the reports that they get without the others, when those that
crash are in the first pass. -/
theorem analyzeFrom_healthy (a : Analyzer) {us : List SourceUnit}
    (hflat : ∀ u ∈ us, u.tree.mainModulesOutermost = true) :
    a.analyzeFrom (mapUnits (us.filter (·.tree.depth ≤ maxDepth))).toLocal
        ((a.healthy us).map Prod.fst)
      = (a.healthy us).map Prod.snd := by
  have hhealthy : a.healthy us
      = (us.filter fun u => !(a.analyzeUnit (mapUnits us).toLocal u).2.failed).map
        fun u => (u, (a.analyzeUnit (mapUnits us).toLocal u).2) := by
    rw [healthy, analyze, analyzeFrom_eq_map_toLocal a hflat, zip_map_self, List.filter_map]
    rfl
  have hunits : (a.healthy us).map Prod.fst
      = us.filter fun u => !(a.analyzeUnit (mapUnits us).toLocal u).2.failed := by
    rw [hhealthy, List.map_map]
    exact List.map_id _
  rw [mapUnits_filter, hunits, hhealthy, List.map_map]
  exact analyzeFrom_eq_map_toLocal a (fun u hu => hflat u (List.mem_of_mem_filter hu)) us

end Analyzer

/-- **Containment of failures**, for any rules.  There is one report per unit, in order and
under its name.  A unit fails exactly when it nests too deeply or a check crashes while it
is processed, and then it has no issues.  The other units get the reports that they get
when the failing ones are left out: those that nest too deeply altogether, and those in
which a check crashes after the first pass.  At whatever event of a unit a check crashes,
what is left is the reserved frame as it was before the unit, and nothing else. -/
theorem failure_contained (a : Analyzer) {us : List SourceUnit}
    (hflat : ∀ u ∈ us, u.tree.mainModulesOutermost = true) :
    (a.analyze us).map UnitReport.unit = us.map SourceUnit.name ∧
      (∀ (i : Nat) (u : SourceUnit) (report : UnitReport),
        us[i]? = some u → (a.analyze us)[i]? = some report →
        (report.failed = true ↔
          maxDepth < u.tree.depth ∨ u.Crashes (a.resolverBefore us i) a.checks) ∧
        (report.failed = true → report.issues = [])) ∧
      a.analyzeFrom (Analyzer.mapUnits (us.filter (·.tree.depth ≤ maxDepth))).toLocal
          ((a.healthy us).map Prod.fst)
        = (a.healthy us).map Prod.snd ∧
      ∀ (i : Nat) (u : SourceUnit) (met : List Event) (after : LocalResolver),
        us[i]? = some u → met <+: u.events →
        met.foldl (fun r event => Resolver.on event r) (a.resolverBefore us i) = after →
        after.recover
            = ⟨⟨.ofExports (a.resolverBefore us i).symbols.scopes.reserved, .empty, none⟩, []⟩ ∧
          (u.tree.depth ≤ maxDepth →
            CrashesAfter u.name (a.resolverBefore us i) a.checks .empty met →
            a.resolverBefore us (i + 1) = after.recover) := by
  refine ⟨a.units_analyze us, ?_, a.analyzeFrom_healthy hflat, ?_⟩
  · intro i u report hu hreport
    rw [Analyzer.getElem?_analyze, hu, Option.map_some] at hreport
    cases hreport
    exact a.failed_analyzeUnit (a.resolverBefore us i) u
  · rintro i u met after hu hmet rfl
    have hreserved := Analyzer.getElem?_zero_resolverBefore (a := a) hflat i
    rw [← ScopeTable.reserved_of_getElem?_zero hreserved] at hreserved
    constructor
    · have hframe := LocalResolver.getElem?_zero_foldl_of_flat hreserved
        (hflat u (List.mem_of_getElem? hu)) hmet
      exact LocalResolver.recover_eq hframe
    · intro hdepth hcrash
      rw [Analyzer.resolverBefore_succ a hu]
      rcases a.analyzeUnit_cases (a.resolverBefore us i) u with
        ⟨hdeep, -⟩ | ⟨-, hnone, -⟩ | ⟨-, -, hunit⟩
      · exact absurd hdepth (Nat.not_le.2 hdeep)
      · exact absurd ⟨met, hmet, hcrash⟩ hnone
      · rw [hunit met hmet hcrash]

/-- A rule with a check that crashes when a function declaration is left. -/
def brittleRule : Rule where
  info := ⟨"Brittle", "Brittle", .info, "", true⟩
  check _ :=
    { Memory := Unit
      memory := ()
      step := fun _ event _ =>
        match event with
        | .exit n => if n.is Kind.functionDecl then none else some ((), [])
        | _ => some ((), []) }

/-- As many nodes as asked for, one inside the other. -/
def nested : Nat → Forest
  | 0 => .nil
  | n + 1 => .node ⟨"expr", none, ⟨1, 0⟩⟩ (nested n) .nil

/-- A unit that nests too deeply. -/
def nestedUnit : SourceUnit := ⟨"nested", ⟨⟨"module", none, ⟨1, 0⟩⟩, nested maxDepth⟩, []⟩

theorem kind_of_mem_nested {n : Nat} {d : Node} (h : d ∈ (nested n).preorder) : d.kind = "expr" := by
  induction n with
  | zero => simp [nested, Forest.preorder] at h
  | succ n ih =>
      simp only [nested, Forest.preorder, List.append_nil, List.mem_cons] at h
      rcases h with rfl | h
      · rfl
      · exact ih h

theorem mainModulesOutermost_nestedUnit : nestedUnit.tree.mainModulesOutermost = true := by
  refine Node.mainModulesOutermost_of_forall_ne fun d hd => ?_
  rcases List.mem_cons.1 hd with rfl | hd
  · decide
  · rw [kind_of_mem_nested hd]
    decide

/-- The standard rules and the brittle one. -/
def brittleAnalyzer : Analyzer where
  config := .standard
  registry := Registry.standard.register brittleRule
  rules := (Registry.standard.register brittleRule).rules.values.filter fun rule =>
    Registry.isActive .standard rule.info

/-- The check crashes in the library, and one unit nests too deeply.  The unit between them
still finds the function that the library exports, and it starts from the exports alone. -/
theorem failure_contained_brittleAnalyzer :
    Analyzer.ofRegistry .standard (Registry.standard.register brittleRule) = .ok brittleAnalyzer ∧
    brittleAnalyzer.analyze [libraryUnit, callingUnit, nestedUnit]
      = [⟨"library", [], true⟩, ⟨"main", [], false⟩, ⟨"nested", [], true⟩] ∧
    brittleAnalyzer.analyzeFrom (Analyzer.mapUnits [libraryUnit, callingUnit]).toLocal [callingUnit]
      = [⟨"main", [], false⟩] ∧
    brittleAnalyzer.resolverBefore [libraryUnit, callingUnit, nestedUnit] 1
      = ⟨⟨.ofExports (Analyzer.mapUnits [libraryUnit, callingUnit]).symbols.scopes.reserved,
        .empty, none⟩, []⟩ := by
  have hflat : ∀ u ∈ [libraryUnit, callingUnit, nestedUnit],
      u.tree.mainModulesOutermost = true := by
    simp only [List.forall_mem_cons, List.not_mem_nil, false_implies, implies_true, and_true]
    exact ⟨by decide +kernel, by decide +kernel, mainModulesOutermost_nestedUnit⟩
  have hshallow : [libraryUnit, callingUnit, nestedUnit].filter (·.tree.depth ≤ maxDepth)
      = [libraryUnit, callingUnit] := by decide +kernel
  have hdepth : libraryUnit.tree.depth ≤ maxDepth := by decide +kernel
  have hreports : brittleAnalyzer.analyze [libraryUnit, callingUnit, nestedUnit]
      = [⟨"library", [], true⟩, ⟨"main", [], false⟩, ⟨"nested", [], true⟩] := by decide +kernel
  have hhealthy : brittleAnalyzer.healthy [libraryUnit, callingUnit, nestedUnit]
      = [(callingUnit, ⟨"main", [], false⟩)] := by
    rw [Analyzer.healthy, hreports]
    rfl
  obtain ⟨-, hfailed, halone, hrecover⟩ := failure_contained brittleAnalyzer hflat
  obtain ⟨hfails, -⟩ := hfailed 0 libraryUnit ⟨"library", [], true⟩ rfl (by rw [hreports]; rfl)
  obtain ⟨met, hmet, hcrash⟩ := (hfails.1 rfl).resolve_left (Nat.not_lt.2 hdepth)
  obtain ⟨hleft, hnext⟩ := hrecover 0 libraryUnit met _ rfl hmet rfl
  rw [hshallow, hhealthy] at halone
  refine ⟨rfl, hreports, halone, (hnext hdepth hcrash).trans (hleft.trans ?_)⟩
  rw [← hshallow, Analyzer.mapUnits_filter, Analyzer.resolverBefore_zero, ExportMapper.toLocal]

end QueryAudit
