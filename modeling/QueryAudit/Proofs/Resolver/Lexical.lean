import QueryAudit.Proofs.Resolver.Visible
import QueryAudit.Proofs.Walk.Calls

/-!
# QueryAudit.Proofs.Resolver.Lexical

The second pass follows lexical scopes.  `Follows` ties the resolver to a moment
of the walk: its frames hold what the rule of `visible` lists for that moment,
the frame of the exports lies below them, and the parameters it keeps are those
of the function declarations around.

* `Follows.enter`, `Follows.exit` — every event keeps this;
* `lookup_entering` — when a check is called on entering a node, a look-up finds the
  symbol that the rule selects.
-/

namespace QueryAudit

/-- The resolver holds what belongs to a moment of the walk. -/
structure Follows (exports : Keyed SymbolKey Symbol) (t : Trail) (r : LocalResolver) : Prop where
  isStack : r.symbols.scopes.IsStack
  stack_eq : r.symbols.scopes.stack = (frames t.entered t.around).map (bindAll .empty) ++ [exports]
  module_eq : r.symbols.module = lastModule t.entered
  pending_eq : r.pending = (t.around.filter (·.node.is Kind.functionDecl)).map
    (·.node.declaredParams Node.line)

theorem frames_ne_nil (sites : List Site) (path : List Place) : frames sites path ≠ [] := by
  simp [frames]

namespace Follows

variable {exports : Keyed SymbolKey Symbol} {t : Trail} {r : LocalResolver}

/-- A look-up searches the frames of the rule and then the exports. -/
theorem lookup_eq (h : Follows exports t r) (key : SymbolKey) :
    r.symbols.scopes.lookup key
      = ((frames t.entered t.around).findSome? (lastUnder key)).or (exports.find? key) := by
  have hframe : ∀ frame : List Symbol,
      (bindAll .empty frame).find? key = lastUnder key frame := by
    intro frame
    rw [find?_bindAll, Keyed.find?_empty, Option.or_none]
  rw [ScopeTable.lookup_eq_findSome? h.isStack, h.stack_eq, List.findSome?_append,
    List.findSome?_map]
  simp [Function.comp_def, hframe]

/-- The frame of the exports stands at the bottom of the arena. -/
theorem getElem?_zero (h : Follows exports t r) :
    r.symbols.scopes.frames[0]? = some ⟨.reserved, none, exports⟩ :=
  h.isStack.getElem?_zero h.stack_eq

/-- The parameters that a function body will see are those that wait innermost. -/
theorem parameters_eq (h : Follows exports t r) (n : Node) :
    parameters (t.site n).toPlace t.around
      = if n.is Kind.functionBody then (r.pending.head?.getD []).map .var else [] := by
  rw [parameters, h.pending_eq, List.head?_map, List.head?_filter]
  rfl

theorem scopes_enter (hsound : t.Sound) (h : Follows exports t r) (n : Node) :
    (r.enter n).symbols.scopes.IsStack ∧ (r.enter n).symbols.scopes.stack
      = (frames (t.enter n).entered (t.enter n).around).map (bindAll .empty) ++ [exports] := by
  cases hopens : n.opensScope with
  | true =>
      rw [frames_enter_opensScope hsound n hopens, h.parameters_eq, List.map_cons,
        List.cons_append, ← h.stack_eq]
      exact LocalResolver.stack_enter_opensScope h.isStack hopens
  | false =>
      obtain ⟨top, rest, hframes⟩ := List.exists_cons_of_ne_nil
        (frames_ne_nil t.entered t.around)
      have hstack := h.stack_eq
      rw [hframes] at hstack
      rw [frames_enter hsound n hopens, bindings_site hsound n, hframes, List.modifyHead_cons,
        List.map_cons, bindAll_append, ← h.module_eq, ← SymbolTable.ownNamespace?_eq]
      exact LocalResolver.stack_enter h.isStack hopens hstack

/-- **Entering a node** keeps the resolver with the walk. -/
theorem enter (hsound : t.Sound) (h : Follows exports t r) (n : Node) :
    Follows exports (t.enter n) (r.enter n) where
  isStack := (h.scopes_enter hsound n).1
  stack_eq := (h.scopes_enter hsound n).2
  module_eq := by rw [LocalResolver.module_enter, h.module_eq, lastModule_enter]
  pending_eq := by
    rw [LocalResolver.pending_enter, h.pending_eq, Trail.around_enter, List.filter_cons]
    cases hkind : n.is Kind.functionDecl <;> simp [hkind]

theorem scopes_exit (hsound : t.Sound) (h : Follows exports t r) {place : Place}
    {outer : List Place} (haround : t.around = place :: outer)
    (hflat : place.node.is Kind.mainModule = true → ∀ p ∈ outer, ¬ p.node.opensScope = true) :
    (r.exit place.node).symbols.scopes.IsStack ∧ (r.exit place.node).symbols.scopes.stack
      = (frames t.exit.entered t.exit.around).map (bindAll .empty) ++ [exports] := by
  rw [LocalResolver.scopes_exit]
  cases hopens : place.node.opensScope with
  | true =>
      obtain ⟨top, hframes⟩ := frames_exit_opensScope haround hopens
      obtain ⟨next, rest, hrest⟩ := List.exists_cons_of_ne_nil
        (frames_ne_nil t.exit.entered t.exit.around)
      have hstack := h.stack_eq
      rw [hframes, hrest] at hstack
      rw [hrest]
      exact ⟨h.isStack.pop, ScopeTable.stack_pop h.isStack hstack⟩
  | false =>
      cases hmain : place.node.is Kind.mainModule with
      | true =>
          rw [frames_exit_mainModule haround hsound hmain (hflat hmain)]
          have hpush : (r.symbols.scopes.unwind.push .source).stack = [.empty] ++ [exports] := by
            rw [ScopeTable.stack_push, ScopeTable.stack_unwind h.stack_eq]
            rfl
          exact ⟨h.isStack.unwind.push .source, hpush⟩
      | false =>
          rw [frames_exit haround hopens hmain]
          exact ⟨h.isStack, h.stack_eq⟩

/-- **Leaving a node** keeps the resolver with the walk, as long as no main module
stands in a node that opens a frame. -/
theorem exit (hsound : t.Sound) (h : Follows exports t r) {place : Place} {outer : List Place}
    (haround : t.around = place :: outer)
    (hflat : place.node.is Kind.mainModule = true → ∀ p ∈ outer, ¬ p.node.opensScope = true) :
    Follows exports t.exit (r.exit place.node) where
  isStack := (h.scopes_exit hsound haround hflat).1
  stack_eq := (h.scopes_exit hsound haround hflat).2
  module_eq := by rw [LocalResolver.module_exit, h.module_eq, Trail.entered_exit]
  pending_eq := by
    rw [LocalResolver.pending_exit, h.pending_eq, around_exit_of_cons haround, haround,
      List.filter_cons]
    cases hkind : place.node.is Kind.functionDecl <;> simp

/-- A unit starts with a frame of its own on that of the exports. -/
theorem enterSource (hreserved : r.symbols.scopes.frames[0]? = some ⟨.reserved, none, exports⟩) :
    Follows exports .start r.enterSource where
  isStack := (LocalResolver.stack_enterSource hreserved).1
  stack_eq := (LocalResolver.stack_enterSource hreserved).2
  module_eq := rfl
  pending_eq := rfl

end Follows

/-! ## along a walk -/

section

variable {exports : Keyed SymbolKey Symbol} {t : Trail} {r : LocalResolver}

/-- No node that opens a frame is around an outermost main module. -/
theorem not_opensScope_of_isOutermost (hsound : t.Sound)
    (hflat : ∀ s ∈ t.entered, s.isOutermost = true) {place : Place} {outer : List Place}
    (haround : t.around = place :: outer) (hmain : place.node.is Kind.mainModule = true) :
    ∀ p ∈ outer, ¬ p.node.opensScope = true := by
  obtain ⟨s, hs, rfl, rfl⟩ := hsound.exists_site_of_cons haround
  exact Site.not_opensScope_of_isOutermost (hflat s hs) hmain

/-- **A walk** keeps the resolver with the moments it goes through, as long as the
main modules that it enters are outermost. -/
theorem Follows.foldl (hsound : t.Sound) (h : Follows exports t r) {events : List Event}
    (hallows : t.Allows events)
    (hflat : ∀ s ∈ (events.foldl Trail.on t).entered, s.isOutermost = true) :
    Follows exports (events.foldl Trail.on t)
      (events.foldl (fun r event => Resolver.on event r) r) := by
  refine (Trail.foldl_induct
    (motive := fun t r => (∀ s ∈ t.entered, s.isOutermost = true) → Follows exports t r)
    ?_ ?_ hsound (fun _ => h) hallows).2 hflat
  · intro t n r hsound ih hflat
    exact (ih fun s hs => hflat s (List.mem_append_left _ hs)).enter hsound n
  · intro t place outer r hsound haround ih hflat
    exact (ih hflat).exit hsound haround
      (not_opensScope_of_isOutermost hsound hflat haround)

/-- At every moment of the walk over a tree the resolver is where the walk is. -/
theorem Follows.walk {root : Node} {before after : List Event}
    (hreserved : r.symbols.scopes.frames[0]? = some ⟨.reserved, none, exports⟩)
    (hflat : root.mainModulesOutermost = true) (hevents : root.events = before ++ after) :
    Follows exports (before.foldl Trail.on .start)
      (before.foldl (fun r event => Resolver.on event r) r.enterSource) := by
  apply (Follows.enterSource hreserved).foldl Trail.sound_start (Node.allows_of_events_eq hevents)
  intro s hs
  have hinitial := Node.entered_isPrefix_sites hevents
  exact List.all_eq_true.1 hflat s (hinitial.subset hs)

/-- When a node is entered the resolver is at the moment after the entry. -/
theorem Follows.entering {root n : Node} {before after : List Event}
    (hreserved : r.symbols.scopes.frames[0]? = some ⟨.reserved, none, exports⟩)
    (hflat : root.mainModulesOutermost = true)
    (hevents : root.events = before ++ .enter n :: after) :
    Follows exports ((before.foldl Trail.on .start).enter n)
      ((before ++ [Event.enter n]).foldl (fun r event => Resolver.on event r) r.enterSource) := by
  have hfollows := Follows.walk hreserved hflat (hevents.trans (List.append_cons before _ after))
  rw [List.foldl_append (f := Trail.on)] at hfollows
  exact hfollows

/-- The rule for a site reads the frames of the moment after its entry. -/
theorem visible_site {root n : Node} {before after : List Event}
    (hevents : root.events = before ++ .enter n :: after) (exports : Keyed SymbolKey Symbol)
    (key : SymbolKey) :
    visible root exports ((before.foldl Trail.on .start).site n) key
      = ((frames ((before.foldl Trail.on .start).enter n).entered
          ((before.foldl Trail.on .start).enter n).around).findSome? (lastUnder key)).or
        (exports.find? key) := by
  rw [visible, Trail.site_index, Trail.length_entered_start, ← Trail.entered_eq_take hevents]
  rfl

end

/-- A node that is entered in the walk over a unit is entered in the walk over its
tree. -/
theorem SourceUnit.events_split {u : SourceUnit} {k : Nat} {n : Node}
    (h : u.events[k]? = some (.enter n)) :
    ∃ before after, u.tree.events = before ++ .enter n :: after
      ∧ u.events.take k = .enterSource u.tree :: before
      ∧ u.events.take (k + 1) = .enterSource u.tree :: (before ++ [.enter n]) := by
  rw [u.events_eq] at h ⊢
  cases k with
  | zero => simp at h
  | succ k =>
      rw [List.getElem?_cons_succ] at h
      have hk : k < u.tree.events.length := by
        by_cases hk : k < u.tree.events.length
        · exact hk
        · rw [List.getElem?_append_right (Nat.not_lt.1 hk)] at h
          rcases hi : k - u.tree.events.length with _ | _ | i <;> simp [hi] at h
      rw [List.getElem?_append_left hk] at h
      have htake := List.take_succ_eq_append_getElem hk
      rw [List.getElem?_eq_getElem hk, Option.some.injEq] at h
      rw [h] at htake
      refine ⟨u.tree.events.take k, u.tree.events.drop (k + 1), ?_, ?_, ?_⟩
      · rw [← h, List.getElem_cons_drop, List.take_append_drop]
      · rw [List.take_succ_cons, List.take_append_of_le_length (Nat.le_of_lt hk)]
      · rw [List.take_succ_cons, List.take_append_of_le_length hk, htake]

/-- **Lexical scoping**: whenever a check is called because the walk comes to a node, a
look-up under any key finds the symbol that the rule selects at the site of that node,
whatever the exports, the checks and the state before the unit are.  Unless one of them
crashes, every check of the list is called at every event. -/
theorem lookup_entering (u : SourceUnit) (r : LocalResolver) (checks : List Check)
    (exports : Keyed SymbolKey Symbol)
    (hreserved : r.symbols.scopes.frames[0]? = some ⟨.reserved, none, exports⟩)
    (hflat : u.tree.mainModulesOutermost = true) :
    (∀ i k call n, (u.callsOf r checks i)[k]? = some call → call.event = .enter n →
      u.events[k]? = some (.enter n) ∧
        ∃ s, u.tree.sites[(u.events.take k).countP (·.isEnter)]? = some s ∧ s.node = n ∧
          ∀ key, call.context.symbols.scopes.lookup key = visible u.tree exports s key) ∧
    ∀ i issues, i < checks.length → (process u r checks).2 = some issues →
      (u.callsOf r checks i).map Call.event = u.events := by
  refine ⟨fun i k call n hcall hn => ?_, fun i issues hi h => (map_event_callsOf u r hi).2 issues h⟩
  obtain ⟨hevent, hsymbols⟩ := seen_of_getElem?_callsOf hcall
  rw [hn] at hevent
  obtain ⟨before, after, htree, hbefore, hupto⟩ := SourceUnit.events_split hevent
  have hcount : (u.events.take k).countP (·.isEnter) = before.countP (·.isEnter) := by
    rw [hbefore, List.countP_cons_of_neg (by simp [Event.isEnter])]
  refine ⟨hevent, (before.foldl Trail.on .start).site n, ?_, rfl, fun key => ?_⟩
  · rw [hcount, Trail.getElem?_sites htree]
  · have hfollows := Follows.entering hreserved hflat htree
    rw [hsymbols, hupto, List.foldl_cons, visible_site htree]
    exact hfollows.lookup_eq key

/-- A function whose parameter `$x` is bound again by a let clause, with a
reference to `$x` between the clause and the variable. -/
def reboundParameter : SourceUnit where
  name := "rebound"
  tree := ⟨⟨Kind.functionDecl, none, ⟨1, 0⟩⟩,
    .leaf ⟨"f", some Field.name, ⟨1, 0⟩⟩
    (.node ⟨Kind.param, none, ⟨2, 0⟩⟩ (.leaf ⟨"$x", some Field.name, ⟨2, 0⟩⟩ .nil)
    (.node ⟨Kind.functionBody, none, ⟨3, 0⟩⟩
      (.node ⟨Kind.flworExpr, none, ⟨3, 0⟩⟩
        (.node ⟨Kind.letClause, none, ⟨4, 0⟩⟩
          (.node ⟨Kind.letVar, none, ⟨4, 0⟩⟩
            (.leaf ⟨"$a", some Field.name, ⟨4, 0⟩⟩
            (.node ⟨Kind.varRef, none, ⟨4, 0⟩⟩ (.leaf ⟨"$x", none, ⟨4, 0⟩⟩ .nil) .nil))
          (.node ⟨Kind.letVar, none, ⟨5, 0⟩⟩ (.leaf ⟨"$x", some Field.name, ⟨5, 0⟩⟩ .nil) .nil))
        .nil) .nil) .nil))⟩
  problems := []

/-- The reference stands for the variable of the let clause around it. -/
theorem lookup_entering_reboundParameter : ∃ call n,
    (reboundParameter.callsOf ExportMapper.initial.toLocal [.onEnter fun _ _ => []] 0)[8]?
      = some call
    ∧ call.event = .enter n ∧ n.kind = Kind.varRef
    ∧ call.context.symbols.scopes.lookup (.make "$x" none) = some (.var ⟨"x", none, none, 4⟩) := by
  refine ⟨_, _, rfl, rfl, rfl, ?_⟩
  obtain ⟨-, s, hs, -, hlookup⟩ := (lookup_entering reboundParameter ExportMapper.initial.toLocal
    [.onEnter fun _ _ => []] .empty rfl (by decide)).1 0 8 _ _ rfl rfl
  rw [hlookup]
  cases hs
  decide +kernel

/-- A let clause binds its variables before the walk comes to them: the reference
stands for `$x` of the clause when only the parameter `$x` has been met. -/
theorem lookup_before_letVar : ∃ call n,
    (reboundParameter.callsOf ExportMapper.initial.toLocal [.onEnter fun _ _ => []] 0)[8]?
      = some call
    ∧ (process reboundParameter ExportMapper.initial.toLocal [.onEnter fun _ _ => []]).2 = some []
    ∧ call.event = .enter n
    ∧ (reboundParameter.tree.sites[6]?).map (·.node) = some n
    ∧ (∀ s ∈ reboundParameter.tree.sites.take 7,
        s.node.is Kind.letVar = true → s.node.nameText? ≠ some "$x")
    ∧ reboundParameter.tree.declaredParams Node.line = [⟨"x", none, none, 2⟩]
    ∧ call.context.symbols.scopes.lookup (.make "$x" none) = some (.var ⟨"x", none, none, 4⟩) := by
  refine ⟨_, _, rfl, rfl, rfl, by decide, by decide, by decide, ?_⟩
  decide +kernel

end QueryAudit
