import QueryAudit.Proofs.Resolver.Visible

/-!
# QueryAudit.Proofs.Resolver.Exported

The first pass collects exports.  What a tree exports is said of its sites alone,
and the pass binds exactly that in the reserved frame, which stays the only one.

* `ExportMapper.enter_eq` — what one node exports;
* `ExportMapper.scopes_mapTree` — the scopes after one tree;
* `ExportMapper.scopes_foldl_mapTree` — and after any number of them.
-/

namespace QueryAudit

/-- What a tree exports: the functions and variables that stand behind a module
declaration with a namespace. -/
def exported (sites : List Site) : List Symbol :=
  declaredWhere sites fun before s =>
    (s.node.is Kind.functionDecl || s.node.is Kind.varDecl)
      && (namespaceIn (lastModule before)).isSome

namespace ExportMapper

variable (n : Node) (m : ExportMapper)

theorem publish_eq (declared : Option String → Option Symbol) :
    m.publish declared =
      ⟨{ m.symbols with
          scopes :=
            if m.symbols.ownNamespace?.isSome then
              (declared m.symbols.ownNamespace?).toList.foldl ScopeTable.defineReserved
                m.symbols.scopes
            else m.symbols.scopes }⟩ := by
  unfold publish
  cases m.symbols.ownNamespace? with
  | none => rfl
  | some uri =>
      dsimp only
      cases declared (some uri) <;> rfl

/-- **Entering a node** exports what it declares when the module has a namespace. -/
theorem enter_eq :
    m.enter n =
      ⟨{ m.symbols with
          scopes :=
            if (n.is Kind.functionDecl || n.is Kind.varDecl)
                && m.symbols.ownNamespace?.isSome then
              (n.declares m.symbols.ownNamespace?).foldl ScopeTable.defineReserved
                m.symbols.scopes
            else m.symbols.scopes
          module :=
            if n.is Kind.moduleDecl then some n.declaredModule else m.symbols.module }⟩ := by
  unfold enter
  split
  case h_2 hkind =>
      rw [publish_eq]
      simp +decide [Node.is, Node.declares, hkind, Option.toList_map]
  case h_3 hkind =>
      rw [publish_eq]
      simp +decide [Node.is, Node.declares, hkind, Option.toList_map]
  all_goals simp_all +decide [Node.is]

theorem scopes_enter :
    (m.enter n).symbols.scopes =
      if (n.is Kind.functionDecl || n.is Kind.varDecl) && m.symbols.ownNamespace?.isSome then
        (n.declares m.symbols.ownNamespace?).foldl ScopeTable.defineReserved m.symbols.scopes
      else m.symbols.scopes := by
  rw [enter_eq]

theorem module_enter :
    (m.enter n).symbols.module =
      if n.is Kind.moduleDecl then some n.declaredModule else m.symbols.module := by
  rw [enter_eq]

end ExportMapper

theorem ScopeTable.foldl_defineReserved (exports : Keyed SymbolKey Symbol) (symbols : List Symbol) :
    symbols.foldl defineReserved (ofExports exports) = ofExports (bindAll exports symbols) := by
  induction symbols generalizing exports with
  | nil => rfl
  | cons s symbols ih => exact ih (exports.insert s.key s)

/-- The mapper holds what has been exported up to a moment of the walk. -/
structure Publishes (exports : Keyed SymbolKey Symbol) (t : Trail) (m : ExportMapper) : Prop where
  scopes_eq : m.symbols.scopes = .ofExports (bindAll exports (exported t.entered))
  module_eq : m.symbols.module = lastModule t.entered

namespace Publishes

variable {exports : Keyed SymbolKey Symbol} {t : Trail} {m : ExportMapper}

/-- **Entering a node** exports what it declares. -/
theorem enter (hsound : t.Sound) (h : Publishes exports t m) (n : Node) :
    Publishes exports (t.enter n) (m.enter n) where
  scopes_eq := by
    have hown : m.symbols.ownNamespace? = namespaceIn (lastModule t.entered) := by
      rw [SymbolTable.ownNamespace?_eq, h.module_eq]
    have hexported : exported (t.enter n).entered = exported t.entered
        ++ if (n.is Kind.functionDecl || n.is Kind.varDecl)
            && (namespaceIn (lastModule t.entered)).isSome
          then n.declares (namespaceIn (lastModule t.entered)) else [] :=
      declaredWhere_enter hsound n _
    rw [ExportMapper.scopes_enter, h.scopes_eq, ScopeTable.foldl_defineReserved, hown, hexported,
      ← bindAll_append]
    split
    · rfl
    · rw [List.append_nil]
  module_eq := by rw [ExportMapper.module_enter, h.module_eq, lastModule_enter]

/-- **A walk** exports what its sites declare. -/
theorem foldl (hsound : t.Sound) (h : Publishes exports t m) {events : List Event}
    (hallows : t.Allows events) :
    Publishes exports (events.foldl Trail.on t)
      (events.foldl (fun m event => Resolver.on event m) m) :=
  (Trail.foldl_induct (motive := Publishes exports)
    (fun _ n _ hsound h => h.enter hsound n) (fun _ _ _ _ _ _ h => ⟨h.scopes_eq, h.module_eq⟩)
    hsound h hallows).2

end Publishes

namespace ExportMapper

/-- **The first pass** binds what a tree exports in the reserved frame. -/
theorem scopes_mapTree (root : Node) {m : ExportMapper} {exports : Keyed SymbolKey Symbol}
    (h : m.symbols.scopes = .ofExports exports) :
    (mapTree root m).symbols.scopes = .ofExports (bindAll exports (exported root.sites)) := by
  have hstart : Publishes exports .start m.recover := ⟨h, rfl⟩
  have hwalk := hstart.foldl Trail.sound_start root.allows_events
  rw [Node.foldl_events] at hwalk
  rw [mapTree, walkEvents, List.foldl_cons, List.foldl_append]
  exact hwalk.scopes_eq

/-- After any number of trees the exports of all of them are bound, in order. -/
theorem scopes_foldl_mapTree (roots : List Node) {m : ExportMapper}
    {exports : Keyed SymbolKey Symbol} (h : m.symbols.scopes = .ofExports exports) :
    (roots.foldl (fun m root => mapTree root m) m).symbols.scopes
      = .ofExports (bindAll exports (roots.flatMap fun root => exported root.sites)) := by
  induction roots generalizing m exports with
  | nil => exact h
  | cons root roots ih =>
      rw [List.foldl_cons, ih (scopes_mapTree root h), List.flatMap_cons, bindAll_append]

/-- The states that the first pass can be in. -/
inductive Reached : ExportMapper → Prop
  | initial : Reached .initial
  | on (event : Event) {m : ExportMapper} (h : Reached m) : Reached (Resolver.on event m)
  | recover {m : ExportMapper} (h : Reached m) : Reached m.recover

/-- The first pass goes through whole trees. -/
theorem Reached.mapTree (root : Node) {m : ExportMapper} (h : m.Reached) :
    (QueryAudit.mapTree root m).Reached :=
  List.foldlRecOn _ _ h fun _ hm event _ => hm.on event

/-- The first pass never opens a frame. -/
theorem Reached.exists_scopes {m : ExportMapper} (h : m.Reached) :
    ∃ exports, m.symbols.scopes = .ofExports exports := by
  induction h with
  | initial => exact ⟨.empty, rfl⟩
  | on event _ ih =>
      obtain ⟨exports, hexports⟩ := ih
      cases event with
      | enter n =>
          rw [Resolver.on, show Resolver.enter n _ = enter n _ from rfl, scopes_enter, hexports,
            ScopeTable.foldl_defineReserved]
          split
          · exact ⟨_, rfl⟩
          · exact ⟨exports, rfl⟩
      | _ => exact ⟨exports, hexports⟩
  | recover _ ih => exact ih

end ExportMapper

end QueryAudit
