import QueryAudit.Walk

/-!
# QueryAudit.Proofs.Walk.Site

Where the nodes of a tree stand.  A `Site` is one node of a tree with its number
in document order and with the nodes around it; equal nodes at different places
are different sites.  A `Trail` is a moment of a walk: the sites that have been
entered so far, and the nodes that have not been left yet.

* `map_node_sites` — the sites of a tree are its nodes in document order;
* `Forest.foldl_events` — the walk over a forest enters exactly its sites, in
  order, and leaves what it enters;
* `Trail.Sound` — how the sites of a moment lie in one another;
* `Trail.foldl_induct` — what one entry and one exit keep holds at every moment
  of a walk.
-/

namespace QueryAudit

/-! ## sites -/

/-- A node with its number in document order. -/
structure Place where
  index : Nat
  node : Node
deriving DecidableEq, Repr

/-- A node of a tree with its number and the nodes around it, innermost first. -/
structure Site extends Place where
  around : List Place
deriving DecidableEq, Repr

/-- A site and the nodes around it, innermost first. -/
def Site.path (s : Site) : List Place := s.toPlace :: s.around

/-- The sites of a forest in document order; `next` is the number of the first
node, and `around` are the nodes around the forest. -/
def Forest.sites (next : Nat) (around : List Place) : Forest → List Site
  | .nil => []
  | .leaf _ rest => rest.sites next around
  | .node label children rest =>
    let place : Place := ⟨next, ⟨label, children⟩⟩
    ⟨place, around⟩ :: (children.sites (next + 1) (place :: around)
      ++ rest.sites (next + 1 + children.nodeCount) around)

/-- The sites of a tree in document order. -/
def Node.sites (n : Node) : List Site := n.toForest.sites 0 []

theorem Forest.length_sites (f : Forest) (next : Nat) (around : List Place) :
    (f.sites next around).length = f.nodeCount := by
  induction f generalizing next around with
  | nil => rfl
  | leaf l rest ih => exact ih next around
  | node label children rest ihc ihr =>
      simp only [sites, nodeCount, List.length_cons, List.length_append, ihc, ihr]
      omega

theorem Forest.map_node_sites (f : Forest) (next : Nat) (around : List Place) :
    (f.sites next around).map (·.node) = f.preorder := by
  induction f generalizing next around with
  | nil => rfl
  | leaf l rest ih => exact ih next around
  | node label children rest ihc ihr => simp [sites, preorder, ihc, ihr]

/-- The sites of a tree are its nodes in document order. -/
theorem map_node_sites (n : Node) : n.sites.map (·.node) = n.preorder := by
  rw [Node.sites, Forest.map_node_sites]
  simp [Node.toForest, Forest.preorder, Node.preorder]

/-! ## moments of a walk -/

/-- A moment of a walk: the sites entered so far, and the nodes that are still to
be left, innermost first. -/
structure Trail where
  entered : List Site
  around : List Place
deriving DecidableEq, Repr

/-- Whether an event is the entry of a node. -/
def Event.isEnter : Event → Bool
  | .enter _ => true
  | _ => false

namespace Trail

/-- No node has been entered. -/
def start : Trail := ⟨[], []⟩

/-- The site of a node that is entered next. -/
def site (t : Trail) (n : Node) : Site := ⟨⟨t.entered.length, n⟩, t.around⟩

/-- A node is entered. -/
def enter (t : Trail) (n : Node) : Trail := ⟨t.entered ++ [t.site n], (t.site n).path⟩

/-- The innermost node is left. -/
def exit (t : Trail) : Trail := { t with around := t.around.tail }

/-- The moment after an event. -/
def on (t : Trail) (event : Event) : Trail :=
  match event with
  | .enter n => t.enter n
  | .exit _ => t.exit
  | _ => t

@[simp] theorem site_index (t : Trail) (n : Node) : (t.site n).index = t.entered.length := rfl
@[simp] theorem site_node (t : Trail) (n : Node) : (t.site n).node = n := rfl
@[simp] theorem site_around (t : Trail) (n : Node) : (t.site n).around = t.around := rfl
@[simp] theorem entered_enter (t : Trail) (n : Node) :
    (t.enter n).entered = t.entered ++ [t.site n] := rfl
@[simp] theorem around_enter (t : Trail) (n : Node) :
    (t.enter n).around = (t.site n).toPlace :: t.around := rfl
@[simp] theorem entered_exit (t : Trail) : t.exit.entered = t.entered := rfl
@[simp] theorem around_exit (t : Trail) : t.exit.around = t.around.tail := rfl

/-- Whether events can happen from a moment on: nodes are entered, and only the
innermost node is left. -/
def Allows (t : Trail) : List Event → Prop
  | [] => True
  | .enter n :: events => (t.enter n).Allows events
  | .exit n :: events => t.around.head?.map Place.node = some n ∧ t.exit.Allows events
  | _ :: _ => False

theorem allows_append (t : Trail) (as bs : List Event) :
    t.Allows (as ++ bs) ↔ t.Allows as ∧ (as.foldl on t).Allows bs := by
  induction as generalizing t with
  | nil => simp [Allows]
  | cons event as ih =>
      cases event with
      | enter n => simp only [List.cons_append, Allows, List.foldl_cons, on, ih]
      | exit n => simp only [List.cons_append, Allows, List.foldl_cons, on, ih, and_assoc]
      | _ => simp [Allows]

/-- What has been entered stays entered. -/
theorem entered_isPrefix (t : Trail) (events : List Event) :
    t.entered <+: (events.foldl on t).entered := by
  induction events generalizing t with
  | nil => exact List.prefix_refl _
  | cons event events ih =>
      have hstep : t.entered <+: (t.on event).entered := by
        cases event with
        | enter n => exact List.prefix_append _ _
        | _ => exact List.prefix_refl _
      exact hstep.trans (ih (t.on event))

/-- There is one entered site for each entry. -/
theorem length_entered (t : Trail) (events : List Event) :
    (events.foldl on t).entered.length = t.entered.length + events.countP (·.isEnter) := by
  induction events generalizing t with
  | nil => rfl
  | cons event events ih =>
      rw [List.foldl_cons, ih, List.countP_cons]
      cases event with
      | enter n => simp [on, enter, Event.isEnter]; omega
      | _ => simp [on, exit, Event.isEnter]

end Trail

/-- **The walk over a forest** enters its sites in document order, and at its end
every node of the forest has been left. -/
theorem Forest.foldl_events (f : Forest) (t : Trail) :
    f.events.foldl Trail.on t
      = ⟨t.entered ++ f.sites t.entered.length t.around, t.around⟩ := by
  induction f generalizing t with
  | nil => simp [events, sites]
  | leaf l rest ih => exact ih t
  | node label children rest ihc ihr =>
      simp only [events, List.foldl_cons, List.foldl_append, Trail.on]
      rw [ihc, ihr]
      simp only [Trail.exit, Trail.enter, Trail.site, Site.path, List.tail_cons, sites,
        List.append_assoc, List.cons_append, List.nil_append, List.length_append,
        List.length_cons, List.length_nil, Nat.zero_add, Forest.length_sites]
      rw [show t.entered.length + (children.nodeCount + 1)
        = t.entered.length + 1 + children.nodeCount by omega]

/-- The walk over a forest leaves no node but the innermost one. -/
theorem Forest.allows_events (f : Forest) (t : Trail) : t.Allows f.events := by
  induction f generalizing t with
  | nil => trivial
  | leaf l rest ih => exact ih t
  | node label children rest ihc ihr =>
      simp only [events, Trail.Allows]
      rw [Trail.allows_append]
      constructor
      · exact ihc _
      · rw [Forest.foldl_events]
        exact ⟨rfl, ihr _⟩

theorem Node.events_toForest (n : Node) : n.toForest.events = n.events := by
  simp [Node.toForest, Forest.events, Node.events]

theorem Node.allows_events (n : Node) : Trail.start.Allows n.events := by
  rw [← Node.events_toForest]
  exact Forest.allows_events _ _

theorem Node.allows_of_events_eq {n : Node} {before after : List Event}
    (h : n.events = before ++ after) : Trail.start.Allows before := by
  have hallows := n.allows_events
  rw [h, Trail.allows_append] at hallows
  exact hallows.1

/-- After the walk over a tree all its sites have been entered. -/
theorem Node.foldl_events (n : Node) : n.events.foldl Trail.on .start = ⟨n.sites, []⟩ := by
  rw [← Node.events_toForest, Forest.foldl_events]
  rfl

/-- At any moment of a walk a first part of the sites has been entered. -/
theorem Node.entered_isPrefix_sites {n : Node} {before after : List Event}
    (h : n.events = before ++ after) :
    (before.foldl Trail.on .start).entered <+: n.sites := by
  have hentered := Trail.entered_isPrefix (before.foldl Trail.on .start) after
  rw [← List.foldl_append, ← h, Node.foldl_events] at hentered
  exact hentered

/-! ## how sites lie in one another -/

namespace Trail

/-- What holds of the sites at every moment of a walk. -/
structure Sound (t : Trail) : Prop where
  /-- Sites are numbered in the order of their entry. -/
  index_eq : ∀ (i : Nat) (s : Site), t.entered[i]? = some s → s.index = i
  /-- The nodes around a site have been entered before it. -/
  around_lt : ∀ s ∈ t.entered, ∀ p ∈ s.around, p.index < s.index
  /-- A node that is still to be left has been entered, in the nodes around it. -/
  exists_path : ∀ p outer, p :: outer <:+ t.around → ∃ s ∈ t.entered, s.path = p :: outer
  /-- Of the nodes still to be left, the inner ones have been entered later. -/
  descending : t.around.Pairwise fun p q => q.index < p.index
  /-- What has been entered since a node was, and that node not left, lies in it. -/
  inside : ∀ p ∈ t.around, ∀ s ∈ t.entered, p.index ≤ s.index → p ∈ s.path

theorem sound_start : start.Sound where
  index_eq i s h := by simp [start] at h
  around_lt s h := by simp [start] at h
  exists_path p outer h := by simp [start] at h
  descending := .nil
  inside p h := by simp [start] at h

theorem Sound.index_lt {t : Trail} (h : t.Sound) {s : Site} (hs : s ∈ t.entered) :
    s.index < t.entered.length := by
  obtain ⟨i, hi, rfl⟩ := List.getElem_of_mem hs
  rw [h.index_eq i _ (List.getElem?_eq_getElem hi)]
  exact hi

/-- What stands behind a site has a higher number. -/
theorem Sound.index_lt_of_append {t : Trail} (h : t.Sound) {m s : Site} {before after : List Site}
    (heq : t.entered = before ++ m :: after) (hs : s ∈ after) : m.index < s.index := by
  obtain ⟨j, hj, rfl⟩ := List.getElem_of_mem hs
  have hm : t.entered[before.length]? = some m := by simp [heq]
  have hs : t.entered[before.length + (j + 1)]? = some after[j] := by
    rw [heq, List.getElem?_append_right (by omega), Nat.add_sub_cancel_left,
      List.getElem?_cons_succ, List.getElem?_eq_getElem hj]
  rw [h.index_eq _ _ hm, h.index_eq _ _ hs]
  omega

theorem Sound.exists_site {t : Trail} (h : t.Sound) {p : Place} (hp : p ∈ t.around) :
    ∃ s ∈ t.entered, s.toPlace = p := by
  obtain ⟨inner, outer, heq⟩ := List.append_of_mem hp
  obtain ⟨s, hs, hpath⟩ := h.exists_path p outer (heq ▸ List.suffix_append inner _)
  exact ⟨s, hs, (List.cons.inj hpath).1⟩

theorem Sound.around_index_lt {t : Trail} (h : t.Sound) {p : Place} (hp : p ∈ t.around) :
    p.index < t.entered.length := by
  obtain ⟨s, hs, rfl⟩ := h.exists_site hp
  exact h.index_lt hs

theorem Sound.nodup_around {t : Trail} (h : t.Sound) : t.around.Nodup := by
  apply h.descending.imp
  intro p q hlt heq
  exact Nat.lt_irrefl _ (heq ▸ hlt)

theorem Sound.not_mem_outer {t : Trail} (h : t.Sound) {place : Place} {outer : List Place}
    (haround : t.around = place :: outer) : place ∉ outer := by
  have hnodup := h.nodup_around
  rw [haround] at hnodup
  exact (List.nodup_cons.1 hnodup).1

/-- The node that is left next has a site, with the nodes around it. -/
theorem Sound.exists_site_of_cons {t : Trail} (h : t.Sound) {place : Place} {outer : List Place}
    (haround : t.around = place :: outer) :
    ∃ s ∈ t.entered, s.toPlace = place ∧ s.around = outer := by
  obtain ⟨s, hs, hpath⟩ := h.exists_path place outer (haround ▸ List.suffix_refl _)
  exact ⟨s, hs, List.cons.inj hpath⟩

/-- A new site is no old one. -/
theorem Sound.toPlace_ne_site {t : Trail} (h : t.Sound) {s : Site} (hs : s ∈ t.entered)
    (n : Node) : s.toPlace ≠ (t.site n).toPlace := by
  intro heq
  have hindex : s.index = t.entered.length := congrArg Place.index heq
  have hlt := h.index_lt hs
  omega

theorem Sound.enter {t : Trail} (h : t.Sound) (n : Node) : (t.enter n).Sound where
  index_eq i s hs := by
    rw [Trail.enter, List.getElem?_append] at hs
    split at hs
    · exact h.index_eq i s hs
    · rw [List.getElem?_singleton] at hs
      split at hs
      · cases hs
        simp only [site]
        omega
      · contradiction
  around_lt s hs p hp := by
    rcases List.mem_append.1 hs with hs | hs
    · exact h.around_lt s hs p hp
    · cases List.mem_singleton.1 hs
      exact h.around_index_lt hp
  exists_path p outer hp := by
    rcases List.suffix_cons_iff.1 hp with heq | hp
    · exact ⟨t.site n, by simp, heq.symm⟩
    · obtain ⟨s, hs, hpath⟩ := h.exists_path p outer hp
      exact ⟨s, List.mem_append_left _ hs, hpath⟩
  descending := List.pairwise_cons.2 ⟨fun _ hp => h.around_index_lt hp, h.descending⟩
  inside p hp s hs hle := by
    rcases List.mem_append.1 hs with hs | hs
    · rcases List.mem_cons.1 hp with rfl | hp
      · have := h.index_lt hs
        simp only [site] at hle
        omega
      · exact h.inside p hp s hs hle
    · cases List.mem_singleton.1 hs
      exact hp

theorem Sound.exit {t : Trail} (h : t.Sound) : t.exit.Sound where
  index_eq := h.index_eq
  around_lt := h.around_lt
  exists_path p outer hp := h.exists_path p outer (hp.trans (List.tail_suffix _))
  descending := h.descending.tail
  inside p hp := h.inside p (List.mem_of_mem_tail hp)

/-! ## induction along a walk -/

section

variable {ρ : Type} [Resolver ρ] {motive : Trail → ρ → Prop}

/-- **Induction along a walk**: what every entry and every exit keeps is kept by
all events that can happen. -/
theorem foldl_induct
    (henter : ∀ t n r, t.Sound → motive t r → motive (t.enter n) (Resolver.enter n r))
    (hexit : ∀ t place outer r, t.Sound → t.around = place :: outer → motive t r →
      motive t.exit (Resolver.exit place.node r))
    {t : Trail} {r : ρ} {events : List Event} (hsound : t.Sound) (hinv : motive t r)
    (hallows : t.Allows events) :
    (events.foldl on t).Sound ∧
      motive (events.foldl on t) (events.foldl (fun r event => Resolver.on event r) r) := by
  induction events generalizing t r with
  | nil => exact ⟨hsound, hinv⟩
  | cons event events ih =>
      cases event with
      | enter n => exact ih (hsound.enter n) (henter t n r hsound hinv) hallows
      | exit n =>
          obtain ⟨hhead, hrest⟩ := hallows
          obtain ⟨place, hplace, rfl⟩ := Option.map_eq_some_iff.1 hhead
          obtain ⟨outer, hcons⟩ := List.head?_eq_some_iff.1 hplace
          exact ih hsound.exit (hexit t place outer r hsound hcons hinv) hrest
      | enterSource root => exact hallows.elim
      | exitSource root => exact hallows.elim
      | report log => exact hallows.elim

end

/-- What is entered next in a walk over a tree is the next of its sites. -/
theorem sites_eq_append {root n : Node} {before after : List Event}
    (h : root.events = before ++ .enter n :: after) :
    ∃ later, root.sites = ((before.foldl on .start).enter n).entered ++ later := by
  obtain ⟨later, hlater⟩ := Node.entered_isPrefix_sites (h.trans (List.append_cons before _ after))
  rw [List.foldl_append] at hlater
  exact ⟨later, hlater.symm⟩

theorem length_entered_start (events : List Event) :
    (events.foldl on .start).entered.length = events.countP (·.isEnter) := by
  rw [length_entered]
  simp [start]

/-- The site of a node that is entered stands in the tree at the number of
entries before it. -/
theorem getElem?_sites {root n : Node} {before after : List Event}
    (h : root.events = before ++ .enter n :: after) :
    root.sites[before.countP (·.isEnter)]? = some ((before.foldl on .start).site n) := by
  obtain ⟨later, hlater⟩ := sites_eq_append h
  rw [hlater, ← length_entered_start, enter, List.append_assoc,
    List.getElem?_append_right (Nat.le_refl _), Nat.sub_self]
  rfl

/-- What has been entered with a node are the sites up to it. -/
theorem entered_eq_take {root n : Node} {before after : List Event}
    (h : root.events = before ++ .enter n :: after) :
    ((before.foldl on .start).enter n).entered
      = root.sites.take (before.countP (·.isEnter) + 1) := by
  obtain ⟨later, hlater⟩ := sites_eq_append h
  have hlen : ((before.foldl on .start).enter n).entered.length
      = before.countP (·.isEnter) + 1 := by
    rw [enter, List.length_append, length_entered_start, List.length_singleton]
  rw [hlater, ← hlen, List.take_left]

/-- What has been entered are nodes of the tree. -/
theorem node_mem_preorder {root n : Node} {before after : List Event}
    (h : root.events = before ++ .enter n :: after) {s : Site}
    (hs : s ∈ ((before.foldl on .start).enter n).entered) : s.node ∈ root.preorder := by
  rw [entered_eq_take h] at hs
  rw [← map_node_sites]
  exact List.mem_map_of_mem (List.mem_of_mem_take hs)

end Trail

end QueryAudit
