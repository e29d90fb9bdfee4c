import QueryAudit.Proofs.Resolver.Exported
import QueryAudit.Proofs.Walk.Calls

/-!
# QueryAudit.Proofs.Resolver.Reserved

What the second pass does to the reserved frame, for every tree.  Leaving a main
module gives up the frames of the nodes around it, yet leaving one of these nodes
afterwards closes one more frame: that of the transaction.  From then on
declarations go to the reserved frame, where all later units see them.

* `openFrames` — how many frames lie above the reserved one, said of the tree;
* `Grounded.enter`, `Grounded.exit` — every event keeps this;
* `reserved_after_walk` — the reserved frame gets what `leaks` lists, and no more;
* `leaks_eq_nil` — that is nothing when no main module stands in a node that opens
  a frame.
-/

namespace QueryAudit

/-! ## frames that are open -/

/-- The nodes of a path that open a frame. -/
def scopes (path : List Place) : List Place := path.filter (·.node.opensScope)

/-- Whether a site is a main module that is over when a walk is at a path. -/
def Site.isOver (path : List Place) (m : Site) : Bool :=
  m.node.is Kind.mainModule && m.toPlace ∉ path

section

variable (sites : List Site)

/-- The main module that was left last, of those that are not on a path. -/
def lastLeft (path : List Place) : Option Site :=
  let ended := sites.filter (·.isOver path)
  (ended.filter fun m => ended.all fun other => other.toPlace ∉ m.around).getLast?

/-- The nodes that had a frame when the last main module was left. -/
def givenUp (path : List Place) : List Place :=
  scopes (((lastLeft sites path).map (·.around)).getD [])

/-- The number of frames above the reserved one: one for each node that opened a
frame since the last main module was left, and one for the transaction until a
node around that main module is left. -/
def openFrames (path : List Place) : Nat :=
  ((scopes path).filter (· ∉ givenUp sites path)).length
    + if ∀ p ∈ givenUp sites path, p ∈ path then 1 else 0

/-- Whether declarations go to the reserved frame: one of the nodes that had a
frame when the last main module was left is left too, and no other node has
opened a frame. -/
def detached (path : List Place) : Bool :=
  (scopes path).all (· ∈ givenUp sites path) && (givenUp sites path).any (· ∉ path)

/-- The symbols that the second pass binds in the reserved frame. -/
def leaks : List Symbol := declaredWhere sites fun before s => detached before s.around

theorem detached_iff {path : List Place} :
    detached sites path = true ↔ openFrames sites path = 0 := by
  simp [detached, openFrames]

end

/-! ## the main module that was left last -/

theorem getLast?_filter_append {p : Site → Bool} {before after : List Site} {m : Site}
    (hm : p m = true) (hafter : ∀ s ∈ after, ¬ p s = true) :
    ((before ++ m :: after).filter p).getLast? = some m := by
  rw [List.filter_append, List.filter_cons_of_pos hm, List.filter_eq_nil_iff.2 hafter,
    List.getLast?_append]
  rfl

section

variable {sites : List Site} {path : List Place}

theorem mem_of_lastLeft {m : Site} (h : lastLeft sites path = some m) :
    m ∈ sites ∧ m.node.is Kind.mainModule = true := by
  have hmem := List.mem_of_getLast? h
  obtain ⟨hm, hover⟩ := List.mem_filter.1 (List.mem_filter.1 hmem).1
  exact ⟨hm, (Bool.and_eq_true_iff.1 hover).1⟩

theorem mem_givenUp {p : Place} :
    p ∈ givenUp sites path
      ↔ ∃ m, lastLeft sites path = some m ∧ p ∈ m.around ∧ p.node.opensScope = true := by
  cases hlast : lastLeft sites path with
  | none => simp [givenUp, hlast, scopes]
  | some m => simp [givenUp, hlast, scopes]

/-- A node that was not given up does not matter to whether those that were are on a path. -/
theorem forall_mem_cons_iff {given : List Place} {place : Place} (h : place ∉ given) :
    (∀ p ∈ given, p ∈ place :: path) ↔ ∀ p ∈ given, p ∈ path := by
  refine forall₂_congr fun p hp => ?_
  rw [List.mem_cons]
  exact or_iff_right fun heq => h (heq ▸ hp)

end

section

variable {t : Trail} (hsound : t.Sound)
include hsound

theorem lastLeft_enter (n : Node) :
    lastLeft (t.enter n).entered (t.enter n).around = lastLeft t.entered t.around := by
  have hover : (t.enter n).entered.filter (·.isOver (t.enter n).around)
      = t.entered.filter (·.isOver t.around) := by
    have hnew : [t.site n].filter (·.isOver (t.enter n).around) = [] := by
      simp [Site.isOver]
    rw [Trail.entered_enter, List.filter_append, hnew, List.append_nil]
    apply List.filter_congr
    intro m hm
    simp [Site.isOver, hsound.toPlace_ne_site hm n]
  simp only [lastLeft, hover]

/-- The nodes given up were entered before. -/
theorem index_lt_of_mem_givenUp {path : List Place} {p : Place}
    (hp : p ∈ givenUp t.entered path) : p.index < t.entered.length := by
  obtain ⟨m, hlast, haround, -⟩ := mem_givenUp.1 hp
  have hm := (mem_of_lastLeft hlast).1
  exact Nat.lt_trans (hsound.around_lt m hm p haround) (hsound.index_lt hm)

/-- Entering a node opens at most its own frame. -/
theorem openFrames_enter (n : Node) :
    openFrames (t.enter n).entered (t.enter n).around
      = openFrames t.entered t.around + if n.opensScope then 1 else 0 := by
  have hgiven : givenUp (t.enter n).entered (t.enter n).around = givenUp t.entered t.around := by
    rw [givenUp, lastLeft_enter hsound, givenUp]
  have hnew : (t.site n).toPlace ∉ givenUp t.entered t.around :=
    fun hmem => Nat.lt_irrefl _ (index_lt_of_mem_givenUp hsound hmem)
  have hall : (∀ p ∈ givenUp t.entered t.around, p ∈ (t.enter n).around)
      ↔ ∀ p ∈ givenUp t.entered t.around, p ∈ t.around := forall_mem_cons_iff hnew
  have hscopes : scopes (t.enter n).around
      = if n.opensScope then (t.site n).toPlace :: scopes t.around else scopes t.around := by
    rw [scopes, Trail.around_enter, List.filter_cons]
    rfl
  rw [openFrames, hgiven, hscopes, openFrames]
  simp only [hall]
  cases n.opensScope with
  | true =>
      rw [if_pos rfl, List.filter_cons_of_pos (by simpa using hnew), List.length_cons, if_pos rfl]
      omega
  | false => rfl

end

section

variable {t : Trail} {place : Place} {outer : List Place} (haround : t.around = place :: outer)
include haround

theorem givenUp_exit (hmain : place.node.is Kind.mainModule = false) :
    givenUp t.exit.entered t.exit.around = givenUp t.entered t.around := by
  have hover : t.entered.filter (·.isOver outer) = t.entered.filter (·.isOver (place :: outer)) := by
    apply List.filter_congr
    intro m _
    rw [Site.isOver, Site.isOver]
    cases hkind : m.node.is Kind.mainModule with
    | false => rfl
    | true =>
        have hne : m.toPlace ≠ place := by
          rintro rfl
          rw [hkind] at hmain
          contradiction
        simp [hne]
  rw [givenUp, givenUp, lastLeft, lastLeft, around_exit_of_cons haround, haround]
  simp only [Trail.entered_exit, hover]

/-- What was entered behind a main module lies in it as long as it is not left. -/
theorem mem_around_of_append (hsound : t.Sound) {m s : Site} {before after : List Site}
    (hmplace : m.toPlace = place) (hsplit : t.entered = before ++ m :: after) (hs : s ∈ after) :
    m.toPlace ∈ s.around := by
  have hlt := hsound.index_lt_of_append hsplit hs
  have hmem : s ∈ t.entered := by
    rw [hsplit]
    exact List.mem_append_right _ (List.mem_cons_of_mem m hs)
  have hplace : m.toPlace ∈ t.around := by
    rw [haround, hmplace]
    exact List.mem_cons_self
  have hpath := hsound.inside m.toPlace hplace s hmem (Nat.le_of_lt hlt)
  rcases List.mem_cons.1 hpath with heq | hin
  · exact absurd (congrArg Place.index heq) (Nat.ne_of_lt hlt)
  · exact hin

/-- A main module that is left is the last one that was left. -/
theorem lastLeft_exit (hsound : t.Sound) (hmain : place.node.is Kind.mainModule = true) :
    ∃ m, lastLeft t.exit.entered t.exit.around = some m ∧ m.around = outer := by
  obtain ⟨m, hm, hmplace, hmouter⟩ := hsound.exists_site_of_cons haround
  refine ⟨m, ?_, hmouter⟩
  obtain ⟨before, after, hsplit⟩ := List.append_of_mem hm
  have hover : m.isOver outer = true := by
    rw [Site.isOver, hmplace, hmain]
    simpa using hsound.not_mem_outer haround
  have houtermost : (t.entered.filter (·.isOver outer)).all (·.toPlace ∉ m.around) = true := by
    rw [List.all_eq_true, hmouter]
    intro other hother
    exact (Bool.and_eq_true_iff.1 (List.mem_filter.1 hother).2).2
  have hinner : ∀ s ∈ after,
      ¬ (t.entered.filter (·.isOver outer)).all (·.toPlace ∉ s.around) = true := by
    intro s hs hall
    have hmem : m ∈ t.entered.filter (·.isOver outer) := List.mem_filter.2 ⟨hm, hover⟩
    have hnot := List.all_eq_true.1 hall m hmem
    exact of_decide_eq_true hnot (mem_around_of_append haround hsound hmplace hsplit hs)
  have hlast : ((before ++ m :: after).filter fun s =>
      (t.entered.filter (·.isOver outer)).all (·.toPlace ∉ s.around)
        && s.isOver outer).getLast? = some m := by
    apply getLast?_filter_append
    · rw [houtermost, hover]
      rfl
    · intro s hs h
      exact hinner s hs (Bool.and_eq_true_iff.1 h).1
  rw [← hsplit] at hlast
  rw [lastLeft, around_exit_of_cons haround, Trail.entered_exit, List.filter_filter]
  exact hlast

/-- With one node of a path all those around it were given up. -/
theorem mem_givenUp_of_outer (hsound : t.Sound) (hmem : place ∈ givenUp t.entered t.around)
    {q : Place} (hq : q ∈ scopes outer) : q ∈ givenUp t.entered t.around := by
  obtain ⟨m, hlast, hplace, -⟩ := mem_givenUp.1 hmem
  obtain ⟨hq, hopens⟩ := List.mem_filter.1 hq
  have hm := (mem_of_lastLeft hlast).1
  have houter : q.index < place.index := (List.pairwise_cons.1 (haround ▸ hsound.descending)).1 q hq
  have hlt : q.index < m.index := Nat.lt_trans houter (hsound.around_lt m hm place hplace)
  have hqaround : q ∈ t.around := haround ▸ List.mem_cons_of_mem place hq
  rcases List.mem_cons.1 (hsound.inside q hqaround m hm (Nat.le_of_lt hlt)) with rfl | hin
  · exact absurd hlt (Nat.lt_irrefl _)
  · exact mem_givenUp.2 ⟨m, hlast, hin, hopens⟩

/-- Leaving a node that opened a frame closes one frame, if there is one above the
reserved frame. -/
theorem openFrames_exit_opensScope (hsound : t.Sound) (hopens : place.node.opensScope = true) :
    openFrames t.exit.entered t.exit.around = openFrames t.entered t.around - 1 := by
  have hmain := Node.not_mainModule_of_opensScope hopens
  have hplace := hsound.not_mem_outer haround
  have hscopes : scopes (place :: outer) = place :: scopes outer :=
    List.filter_cons_of_pos hopens
  rw [openFrames, givenUp_exit haround hmain, openFrames, around_exit_of_cons haround]
  by_cases hmem : place ∈ givenUp t.entered t.around
  · -- all nodes around were given up too, so that at most the transaction was open
    have hnone : (scopes outer).filter (· ∉ givenUp t.entered t.around) = [] := by
      rw [List.filter_eq_nil_iff]
      intro q hq
      simpa using mem_givenUp_of_outer haround hsound hmem hq
    have hsome : ¬ ∀ p ∈ givenUp t.entered t.around, p ∈ outer :=
      fun hall => hplace (hall place hmem)
    rw [hnone, if_neg hsome]
    rw [haround] at hmem hnone ⊢
    rw [hscopes, List.filter_cons_of_neg (by simpa using hmem), hnone]
    split <;> rfl
  · have hall : (∀ p ∈ givenUp t.entered t.around, p ∈ place :: outer)
        ↔ ∀ p ∈ givenUp t.entered t.around, p ∈ outer := forall_mem_cons_iff hmem
    rw [haround] at hmem hall ⊢
    rw [hscopes, List.filter_cons_of_pos (by simpa using hmem), List.length_cons]
    simp only [hall]
    omega

/-- Leaving a main module leaves one frame open, for the next transaction. -/
theorem openFrames_exit_mainModule (hsound : t.Sound)
    (hmain : place.node.is Kind.mainModule = true) :
    openFrames t.exit.entered t.exit.around = 1 := by
  have hgiven : givenUp t.exit.entered t.exit.around = scopes outer := by
    obtain ⟨m, hlast, houter⟩ := lastLeft_exit haround hsound hmain
    rw [givenUp, hlast, Option.map_some, Option.getD_some, houter]
  have hnone : (scopes outer).filter (· ∉ scopes outer) = [] := by
    rw [List.filter_eq_nil_iff]
    intro q hq
    simpa using hq
  have hall : ∀ p ∈ scopes outer, p ∈ outer := fun p hp => (List.mem_filter.1 hp).1
  rw [openFrames, hgiven, around_exit_of_cons haround, hnone, if_pos hall]
  rfl

/-- Leaving any other node closes no frame. -/
theorem openFrames_exit (hopens : place.node.opensScope = false)
    (hmain : place.node.is Kind.mainModule = false) :
    openFrames t.exit.entered t.exit.around = openFrames t.entered t.around := by
  have hscopes : scopes (place :: outer) = scopes outer := by
    rw [scopes, List.filter_cons_of_neg (by simp [hopens]), scopes]
  have hplace : place ∉ givenUp t.entered t.around := by
    intro hmem
    obtain ⟨-, -, -, hplace⟩ := mem_givenUp.1 hmem
    rw [hopens] at hplace
    contradiction
  have hall : (∀ p ∈ givenUp t.entered t.around, p ∈ place :: outer)
      ↔ ∀ p ∈ givenUp t.entered t.around, p ∈ outer := forall_mem_cons_iff hplace
  rw [openFrames, givenUp_exit haround hmain, openFrames, around_exit_of_cons haround]
  rw [haround] at hall ⊢
  rw [hscopes]
  simp only [hall]

end

/-! ## along a walk -/

/-- The resolver at a moment of a walk: as many frames as the tree says, above a
reserved frame with the exports and what has leaked into it. -/
structure Grounded (exports : Keyed SymbolKey Symbol) (t : Trail) (r : LocalResolver) : Prop where
  isStack : r.symbols.scopes.IsStack
  stack_eq : ∃ above, above.length = openFrames t.entered t.around ∧
    r.symbols.scopes.stack = above ++ [bindAll exports (leaks t.entered)]
  module_eq : r.symbols.module = lastModule t.entered

theorem leaks_enter {t : Trail} (hsound : t.Sound) (n : Node) :
    leaks (t.enter n).entered
      = leaks t.entered ++ if detached t.entered t.around then
          n.declares (namespaceIn (lastModule t.entered)) else [] :=
  declaredWhere_enter hsound n _

namespace Grounded

variable {exports : Keyed SymbolKey Symbol} {t : Trail} {r : LocalResolver}

theorem scopes_enter (hsound : t.Sound) (h : Grounded exports t r) (n : Node) :
    (r.enter n).symbols.scopes.IsStack ∧ ∃ above,
      above.length = openFrames (t.enter n).entered (t.enter n).around ∧
      (r.enter n).symbols.scopes.stack = above ++ [bindAll exports (leaks (t.enter n).entered)] := by
  obtain ⟨above, hlength, hstack⟩ := h.stack_eq
  have hown : r.symbols.ownNamespace? = namespaceIn (lastModule t.entered) := by
    rw [SymbolTable.ownNamespace?_eq, h.module_eq]
  rw [openFrames_enter hsound, leaks_enter hsound]
  cases hopens : n.opensScope with
  | true =>
      obtain ⟨hlinks, hpush⟩ := LocalResolver.stack_enter_opensScope h.isStack hopens
      rw [hstack, ← List.cons_append] at hpush
      rw [n.declares_of_opensScope hopens, ite_self, List.append_nil]
      exact ⟨hlinks, _, by rw [List.length_cons, hlength, if_pos rfl], hpush⟩
  | false =>
      cases above with
      | nil =>
          have hdetached : detached t.entered t.around = true :=
            (detached_iff _).2 hlength.symm
          obtain ⟨hlinks, hdefine⟩ := LocalResolver.stack_enter h.isStack hopens hstack
          refine ⟨hlinks, [], hlength, ?_⟩
          rw [hdefine, hdetached, if_pos rfl, bindAll_append, hown]
          rfl
      | cons top above =>
          have hdetached : ¬ detached t.entered t.around = true := by
            rw [detached_iff, ← hlength]
            simp
          obtain ⟨hlinks, hdefine⟩ := LocalResolver.stack_enter h.isStack hopens hstack
          rw [if_neg hdetached, List.append_nil]
          exact ⟨hlinks, bindAll top _ :: above, hlength, hdefine⟩

/-- **Entering a node** binds in the reserved frame only what leaks. -/
theorem enter (hsound : t.Sound) (h : Grounded exports t r) (n : Node) :
    Grounded exports (t.enter n) (r.enter n) where
  isStack := (h.scopes_enter hsound n).1
  stack_eq := (h.scopes_enter hsound n).2
  module_eq := by rw [LocalResolver.module_enter, h.module_eq, lastModule_enter]

theorem scopes_exit (hsound : t.Sound) (h : Grounded exports t r) {place : Place}
    {outer : List Place} (haround : t.around = place :: outer) :
    (r.exit place.node).symbols.scopes.IsStack ∧ ∃ above,
      above.length = openFrames t.exit.entered t.exit.around ∧
      (r.exit place.node).symbols.scopes.stack
        = above ++ [bindAll exports (leaks t.entered)] := by
  obtain ⟨above, hlength, hstack⟩ := h.stack_eq
  rw [LocalResolver.scopes_exit]
  cases hopens : place.node.opensScope with
  | true =>
      rw [openFrames_exit_opensScope haround hsound hopens, ← hlength]
      refine ⟨h.isStack.pop, above.tail, by rw [List.length_tail], ?_⟩
      cases above with
      | nil =>
          rw [if_pos rfl, h.isStack.pop_bottom hstack]
          exact hstack
      | cons top above =>
          have hne : above ++ [bindAll exports (leaks t.entered)] ≠ [] := by simp
          obtain ⟨next, rest, hrest⟩ := List.exists_cons_of_ne_nil hne
          rw [List.cons_append, hrest] at hstack
          rw [if_pos rfl, List.tail_cons, hrest]
          exact ScopeTable.stack_pop h.isStack hstack
  | false =>
      cases hmain : place.node.is Kind.mainModule with
      | true =>
          rw [openFrames_exit_mainModule haround hsound hmain]
          have hpush : (r.symbols.scopes.unwind.push .source).stack
              = [.empty] ++ [bindAll exports (leaks t.entered)] := by
            rw [ScopeTable.stack_push, ScopeTable.stack_unwind hstack]
            rfl
          exact ⟨h.isStack.unwind.push .source, [.empty], rfl, hpush⟩
      | false =>
          rw [openFrames_exit haround hopens hmain]
          exact ⟨h.isStack, above, hlength, hstack⟩

/-- **Leaving a node** binds nothing. -/
theorem exit (hsound : t.Sound) (h : Grounded exports t r) {place : Place} {outer : List Place}
    (haround : t.around = place :: outer) :
    Grounded exports t.exit (r.exit place.node) where
  isStack := (h.scopes_exit hsound haround).1
  stack_eq := (h.scopes_exit hsound haround).2
  module_eq := by rw [LocalResolver.module_exit, h.module_eq, Trail.entered_exit]

/-- A unit starts with one frame. -/
theorem enterSource (hreserved : r.symbols.scopes.frames[0]? = some ⟨.reserved, none, exports⟩) :
    Grounded exports .start r.enterSource where
  isStack := (LocalResolver.stack_enterSource hreserved).1
  stack_eq := ⟨[.empty], rfl, (LocalResolver.stack_enterSource hreserved).2⟩
  module_eq := rfl

/-- **A walk** binds in the reserved frame only what leaks. -/
theorem foldl (hsound : t.Sound) (h : Grounded exports t r) {events : List Event}
    (hallows : t.Allows events) :
    Grounded exports (events.foldl Trail.on t)
      (events.foldl (fun r event => Resolver.on event r) r) :=
  (Trail.foldl_induct (motive := Grounded exports) (fun _ n _ hsound h => h.enter hsound n)
    (fun _ _ _ _ hsound haround h => h.exit hsound haround) hsound h hallows).2

theorem getElem?_zero (h : Grounded exports t r) :
    r.symbols.scopes.frames[0]? = some ⟨.reserved, none, bindAll exports (leaks t.entered)⟩ := by
  obtain ⟨above, -, hstack⟩ := h.stack_eq
  exact h.isStack.getElem?_zero hstack

end Grounded

/-! ## whole walks -/

namespace LocalResolver

variable {r : LocalResolver} {exports : Keyed SymbolKey Symbol}

/-- The end of a unit does not touch the reserved frame. -/
theorem getElem?_zero_exitSource (r : LocalResolver) :
    r.exitSource.symbols.scopes.frames[0]? = r.symbols.scopes.frames[0]? := by
  simp only [exitSource, SymbolTable.mapScopes, ScopeTable.unwind, Array.take_eq_extract,
    Array.getElem?_extract]
  split
  · rfl
  · rw [Array.getElem?_eq_none (by omega)]

theorem getElem?_zero_foldl_end {root : Node} {log : ProblemLog} {events : List Event}
    (h : events ⊆ [.exitSource root, .report log]) (r : LocalResolver) :
    (events.foldl (fun r event => Resolver.on event r) r).symbols.scopes.frames[0]?
      = r.symbols.scopes.frames[0]? := by
  induction events generalizing r with
  | nil => rfl
  | cons event events ih =>
      obtain ⟨hevent, hevents⟩ := List.cons_subset.1 h
      rw [List.foldl_cons, ih hevents]
      simp only [List.mem_cons, List.not_mem_nil, or_false] at hevent
      rcases hevent with rfl | rfl
      · exact getElem?_zero_exitSource r
      · rfl

theorem getElem?_zero_mapTree (root : Node)
    (h : r.symbols.scopes.frames[0]? = some ⟨.reserved, none, exports⟩) :
    (mapTree root r).symbols.scopes.frames[0]?
      = some ⟨.reserved, none, bindAll exports (leaks root.sites)⟩ := by
  have hwalk := (Grounded.enterSource h).foldl Trail.sound_start root.allows_events
  rw [Node.foldl_events] at hwalk
  rw [mapTree, walkEvents, List.foldl_cons, List.foldl_append]
  exact (getElem?_zero_exitSource _).trans hwalk.getElem?_zero

/-- After some of the events of a unit, only what was entered by then can have leaked. -/
theorem getElem?_zero_foldl {u : SourceUnit} {before after : List Event}
    (hevents : u.events = before ++ after)
    (h : r.symbols.scopes.frames[0]? = some ⟨.reserved, none, exports⟩) :
    ∃ met, met <+: u.tree.sites ∧ (after = [] → met = u.tree.sites) ∧
      (before.foldl (fun r event => Resolver.on event r) r).symbols.scopes.frames[0]?
        = some ⟨.reserved, none, bindAll exports (leaks met)⟩ := by
  rcases SourceUnit.events_eq_append hevents with
    rfl | ⟨reached, rest, rfl, htree, hafter⟩ | ⟨ending, rfl, hending⟩
  · refine ⟨[], List.nil_prefix, fun hend => ?_, h⟩
    rw [hend] at hevents
    simp [SourceUnit.events, walkEvents] at hevents
  · have hwalk := (Grounded.enterSource h).foldl Trail.sound_start
      (Node.allows_of_events_eq htree)
    exact ⟨_, Node.entered_isPrefix_sites htree, fun hend => absurd hend hafter,
      hwalk.getElem?_zero⟩
  · have hwalk := (Grounded.enterSource h).foldl Trail.sound_start u.tree.allows_events
    rw [Node.foldl_events] at hwalk
    refine ⟨u.tree.sites, List.prefix_refl _, fun _ => rfl, ?_⟩
    rw [List.foldl_cons, List.foldl_append, getElem?_zero_foldl_end hending]
    exact hwalk.getElem?_zero

/-- When a check crashes, only what was entered by then can have leaked. -/
theorem getElem?_zero_process (u : SourceUnit) (checks : List Check)
    (h : r.symbols.scopes.frames[0]? = some ⟨.reserved, none, exports⟩) :
    ∃ met, met <+: u.tree.sites ∧
      ((process u r checks).2.isSome = true → met = u.tree.sites) ∧
      (process u r checks).1.symbols.scopes.frames[0]?
        = some ⟨.reserved, none, bindAll exports (leaks met)⟩ := by
  obtain ⟨⟨after, hevents⟩, hend⟩ := map_fst_callsFrom u.name r checks .empty u.events
  obtain ⟨met, hmet, hall, hframe⟩ := getElem?_zero_foldl hevents.symm h
  refine ⟨met, hmet, fun hsome => hall ?_, ?_⟩
  · obtain ⟨issues, hissues⟩ := Option.isSome_iff_exists.1 hsome
    rw [hend (process_snd_eq_some hissues).1] at hevents
    exact List.append_right_eq_self.1 hevents
  · rw [process_eq]
    exact hframe

/-- The states that the second pass can be in between two walks. -/
inductive Reached : LocalResolver → Prop
  | toLocal {m : ExportMapper} (h : m.Reached) : Reached m.toLocal
  | mapTree (root : Node) {r : LocalResolver} (h : Reached r) : Reached (mapTree root r)
  | process (u : SourceUnit) (checks : List Check) {r : LocalResolver} (h : Reached r) :
    Reached (process u r checks).1
  | recover {r : LocalResolver} (h : Reached r) : Reached r.recover

theorem Reached.getElem?_zero (h : r.Reached) :
    r.symbols.scopes.frames[0]? = some ⟨.reserved, none, r.symbols.scopes.reserved⟩ := by
  suffices h : ∃ exports, r.symbols.scopes.frames[0]? = some ⟨.reserved, none, exports⟩ by
    obtain ⟨exports, hexports⟩ := h
    rw [ScopeTable.reserved_of_getElem?_zero hexports, hexports]
  induction h with
  | toLocal h =>
      obtain ⟨exports, hexports⟩ := h.exists_scopes
      exact ⟨exports, by rw [ExportMapper.toLocal, hexports]; rfl⟩
  | mapTree root _ ih =>
      obtain ⟨exports, hexports⟩ := ih
      exact ⟨_, getElem?_zero_mapTree root hexports⟩
  | process u checks _ ih =>
      obtain ⟨exports, hexports⟩ := ih
      obtain ⟨met, -, -, hmet⟩ := getElem?_zero_process u checks hexports
      exact ⟨_, hmet⟩
  | recover _ ih =>
      obtain ⟨exports, hexports⟩ := ih
      exact ⟨exports, (getElem?_zero_exitSource _).trans hexports⟩

end LocalResolver

/-- When no main module stands in a node that opens a frame, nothing leaks. -/
theorem leaks_eq_nil {sites : List Site} (h : ∀ s ∈ sites, s.isOutermost = true) :
    leaks sites = [] := by
  have hgiven : ∀ (before : List Site) (path : List Place), before ⊆ sites →
      givenUp before path = [] := by
    intro before path hbefore
    rw [List.eq_nil_iff_forall_not_mem]
    intro p hp
    obtain ⟨m, hlast, haround, hopens⟩ := mem_givenUp.1 hp
    obtain ⟨hm, hmain⟩ := mem_of_lastLeft hlast
    exact Site.not_opensScope_of_isOutermost (h m (hbefore hm)) hmain p haround hopens
  have hnone : sites.filter (fun s => detached (sites.filter (·.index < s.index)) s.around)
      = [] := by
    rw [List.filter_eq_nil_iff]
    intro s _
    have hbefore : sites.filter (·.index < s.index) ⊆ sites := fun _ hs => (List.mem_filter.1 hs).1
    rw [detached, hgiven _ _ hbefore]
    simp
  rw [leaks, declaredWhere, hnone]
  rfl

/-- **The reserved frame** after a walk of the second pass: it gets what leaks and
nothing else, so that its bindings stay as they are exactly when each key that
leaks had the leaked symbol before.  With checks that crash a first part of the
sites counts. -/
theorem reserved_after_walk {r : LocalResolver} (h : r.Reached) (root : Node) :
    (mapTree root r).symbols.scopes.reserved
        = bindAll r.symbols.scopes.reserved (leaks root.sites) ∧
      ((∀ key, (mapTree root r).symbols.scopes.reserved.find? key
          = r.symbols.scopes.reserved.find? key) ↔
        ∀ key s, lastUnder key (leaks root.sites) = some s →
          r.symbols.scopes.reserved.find? key = some s) ∧
      ∀ name problems checks, ∃ met, met <+: root.sites ∧
        ((process ⟨name, root, problems⟩ r checks).2.isSome = true → met = root.sites) ∧
        (process ⟨name, root, problems⟩ r checks).1.symbols.scopes.reserved
          = bindAll r.symbols.scopes.reserved (leaks met) := by
  have hmap : (mapTree root r).symbols.scopes.reserved
      = bindAll r.symbols.scopes.reserved (leaks root.sites) :=
    ScopeTable.reserved_of_getElem?_zero (LocalResolver.getElem?_zero_mapTree root h.getElem?_zero)
  refine ⟨hmap, ?_, ?_⟩
  · rw [hmap]
    refine forall_congr' fun key => ?_
    rw [find?_bindAll]
    cases lastUnder key (leaks root.sites) <;> simp [eq_comm]
  · intro name problems checks
    obtain ⟨met, hmet, hend, hframe⟩ :=
      LocalResolver.getElem?_zero_process ⟨name, root, problems⟩ checks h.getElem?_zero
    exact ⟨met, hmet, hend, ScopeTable.reserved_of_getElem?_zero hframe⟩

/-- A main module inside a FLWOR expression, and a variable behind the expression. -/
def nestedTransaction : Node :=
  ⟨⟨"module", none, ⟨1, 0⟩⟩,
    .node ⟨Kind.flworExpr, none, ⟨1, 0⟩⟩ (.node ⟨Kind.mainModule, none, ⟨1, 0⟩⟩ .nil .nil)
    (.node ⟨Kind.varDecl, none, ⟨1, 0⟩⟩ (.leaf ⟨"$x", some Field.name, ⟨1, 0⟩⟩ .nil) .nil)⟩

/-- The variable behind the expression is left over in the reserved frame. -/
theorem reserved_after_nestedTransaction :
    ExportMapper.initial.toLocal.symbols.scopes.reserved.find? (.make "$x" none) = none ∧
      (mapTree nestedTransaction ExportMapper.initial.toLocal).symbols.scopes.reserved.find?
        (.make "$x" none) = some (.var ⟨"x", none, none, 1⟩) := by
  refine ⟨rfl, ?_⟩
  rw [(reserved_after_walk (.toLocal .initial) nestedTransaction).1]
  decide +kernel

end QueryAudit
