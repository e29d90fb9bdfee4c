import Mathlib.Data.List.Nodup
import QueryAudit.Proofs.Walk.Site

/-!
# QueryAudit.Proofs.Walk.Visit

The walk over a tree as brackets.  A `Visit` is the entry or the exit of a site, so that
each event of a walk tells which node of the tree it is about, equal nodes at different
places included.  `IsWalk` says what makes a list of visits the walk over a tree: every
site is entered once, in document order, and left once, and any two sites either nest or
follow one another.

* `Forest.map_event_visits` — the visits of a forest make its events;
* `Forest.pairwise_sites` — how the visits of two sites lie to each other;
* `Node.isWalk_visits` — the events of a tree are its walk.
-/

namespace QueryAudit

/-- A site is entered or left. -/
inductive Visit where
  | enter (site : Site)
  | exit (site : Site)
deriving DecidableEq, Repr

namespace Visit

/-- The event of a visit. -/
def event : Visit → Event
  | enter s => .enter s.node
  | exit s => .exit s.node

/-- The site that is entered. -/
def entered? : Visit → Option Site
  | enter s => some s
  | exit _ => none

/-- The site that is left. -/
def left? : Visit → Option Site
  | enter _ => none
  | exit s => some s

end Visit

/-- How the visits of two sites lie to each other when the first of them comes first in
document order: a site inside another is left before the other is; else the first site is
left before the second is entered. -/
def Nests (visits : List Visit) (s d : Site) : Prop :=
  if s.toPlace ∈ d.around then [.enter s, .enter d, .exit d, .exit s].Sublist visits
  else [.enter s, .exit s, .enter d, .exit d].Sublist visits

/-- What makes a list of visits the walk over a tree. -/
structure IsWalk (root : Node) (visits : List Visit) : Prop where
  /-- Every site is entered once, in document order. -/
  entered_eq : visits.filterMap Visit.entered? = root.sites
  /-- Every site is left once. -/
  left_perm : (visits.filterMap Visit.left?).Perm root.sites
  /-- Entries and exits are nested as the sites are. -/
  nests : root.sites.Pairwise (Nests visits)

/-- The visits of the nodes of a forest; `next` is the number of the first node, and
`around` are the nodes around the forest. -/
def Forest.visits (next : Nat) (around : List Place) : Forest → List Visit
  | .nil => []
  | .leaf _ rest => rest.visits next around
  | .node label children rest =>
    let place : Place := ⟨next, ⟨label, children⟩⟩
    .enter ⟨place, around⟩ :: (children.visits (next + 1) (place :: around)
      ++ .exit ⟨place, around⟩ :: rest.visits (next + 1 + children.nodeCount) around)

/-- The visits of a tree. -/
def Node.visits (n : Node) : List Visit := n.toForest.visits 0 []

/-! ## where the sites of a forest stand -/

/-- The sites of a forest are numbered without gaps. -/
theorem Forest.map_index_sites (f : Forest) (next : Nat) (around : List Place) :
    (f.sites next around).map (·.index) = List.range' next f.nodeCount := by
  induction f generalizing next around with
  | nil => rfl
  | leaf l rest ih => exact ih next around
  | node label children rest ihc ihr =>
      rw [sites, nodeCount, List.map_cons, List.map_append, ihc, ihr,
        show children.nodeCount + 1 + rest.nodeCount = (children.nodeCount + rest.nodeCount) + 1
          by omega, List.range'_succ, List.range'_append_1]

theorem Forest.index_of_mem_sites {f : Forest} {next : Nat} {around : List Place} {s : Site}
    (h : s ∈ f.sites next around) : next ≤ s.index ∧ s.index < next + f.nodeCount := by
  have hindex := List.mem_map_of_mem (f := fun s : Site => s.index) h
  rw [f.map_index_sites, List.mem_range'_1] at hindex
  exact hindex

/-- The nodes around a site of a forest are those around the forest and nodes of the forest. -/
theorem Forest.around_of_mem_sites {f : Forest} {next : Nat} {around : List Place} {s : Site}
    (h : s ∈ f.sites next around) :
    around <:+ s.around ∧ ∀ p ∈ s.around, p ∈ around ∨ next ≤ p.index := by
  induction f generalizing next around with
  | nil => simp [sites] at h
  | leaf l rest ih => exact ih h
  | node label children rest ihc ihr =>
      rcases List.mem_cons.1 h with rfl | h
      · exact ⟨List.suffix_refl _, fun p hp => Or.inl hp⟩
      · rcases List.mem_append.1 h with h | h
        · obtain ⟨hsuffix, hplaces⟩ := ihc h
          refine ⟨(List.suffix_cons _ _).trans hsuffix, fun p hp => ?_⟩
          rcases hplaces p hp with hp | hindex
          · rcases List.mem_cons.1 hp with rfl | hp
            · exact Or.inr (Nat.le_refl _)
            · exact Or.inl hp
          · exact Or.inr (by omega)
        · obtain ⟨hsuffix, hplaces⟩ := ihr h
          refine ⟨hsuffix, fun p hp => ?_⟩
          rcases hplaces p hp with hp | hindex
          · exact Or.inl hp
          · exact Or.inr (by omega)

/-- The sites of a tree are different from each other. -/
theorem Node.nodup_sites (n : Node) : n.sites.Nodup := by
  refine List.Nodup.of_map (fun s => s.index) ?_
  rw [sites, Forest.map_index_sites]
  exact List.nodup_range'

/-! ## the visits of a forest -/

theorem Forest.map_event_visits (f : Forest) (next : Nat) (around : List Place) :
    (f.visits next around).map Visit.event = f.events := by
  induction f generalizing next around with
  | nil => rfl
  | leaf l rest ih => exact ih next around
  | node label children rest ihc ihr => simp [visits, events, Visit.event, ihc, ihr]

theorem Forest.filterMap_entered_visits (f : Forest) (next : Nat) (around : List Place) :
    (f.visits next around).filterMap Visit.entered? = f.sites next around := by
  induction f generalizing next around with
  | nil => rfl
  | leaf l rest ih => exact ih next around
  | node label children rest ihc ihr =>
      simp [visits, sites, Visit.entered?, List.filterMap_cons, ihc, ihr]

theorem Forest.filterMap_left_visits (f : Forest) (next : Nat) (around : List Place) :
    ((f.visits next around).filterMap Visit.left?).Perm (f.sites next around) := by
  induction f generalizing next around with
  | nil => exact .nil
  | leaf l rest ih => exact ih next around
  | node label children rest ihc ihr =>
      simp only [visits, sites, Visit.left?, List.filterMap_cons, List.filterMap_append]
      -- a node is left behind its children, and it stands in front of them among the sites
      exact List.perm_middle.trans (((ihc _ _).append (ihr _ _)).cons _)

/-- A site is entered before it is left. -/
theorem Forest.enter_exit_sublist {f : Forest} {next : Nat} {around : List Place} {s : Site}
    (h : s ∈ f.sites next around) : [.enter s, .exit s].Sublist (f.visits next around) := by
  induction f generalizing next around with
  | nil => simp [sites] at h
  | leaf l rest ih => exact ih h
  | node label children rest ihc ihr =>
      rw [visits]
      rcases List.mem_cons.1 h with rfl | h
      · refine List.Sublist.cons_cons _ (List.Sublist.trans ?_ (List.sublist_append_right _ _))
        exact List.Sublist.cons_cons _ (List.nil_sublist _)
      · refine List.Sublist.cons _ ?_
        rcases List.mem_append.1 h with h | h
        · exact (ihc h).trans (List.sublist_append_left _ _)
        · exact (List.Sublist.cons _ (ihr h)).trans (List.sublist_append_right _ _)

theorem Nests.mono {visits visits' : List Visit} {s d : Site} (h : Nests visits s d)
    (hsub : visits.Sublist visits') : Nests visits' s d := by
  unfold Nests at h ⊢
  split
  · next hin => exact (if_pos hin ▸ h).trans hsub
  · next hout => exact (if_neg hout ▸ h).trans hsub

/-- Sites of two forests that are walked one after the other follow one another. -/
theorem nests_of_append {f g : Forest} {next later : Nat} {outer around : List Place} {s d : Site}
    (hs : s ∈ f.sites next outer) (hd : d ∈ g.sites later around)
    (hout : s.toPlace ∉ d.around) :
    Nests (f.visits next outer ++ g.visits later around) s d := by
  rw [Nests, if_neg hout]
  exact (Forest.enter_exit_sublist hs).append (Forest.enter_exit_sublist hd)

/-- **Any two sites** of a forest nest or follow one another in its walk. -/
theorem Forest.pairwise_sites (f : Forest) (next : Nat) (around : List Place)
    (h : ∀ p ∈ around, p.index < next) :
    (f.sites next around).Pairwise (Nests (f.visits next around)) := by
  induction f generalizing next around with
  | nil => exact .nil
  | leaf l rest ih => exact ih next around h
  | node label children rest ihc ihr =>
      let place : Place := ⟨next, ⟨label, children⟩⟩
      let later := next + 1 + children.nodeCount
      have hplace : ∀ p ∈ place :: around, p.index < next + 1 := by
        intro p hp
        rcases List.mem_cons.1 hp with rfl | hp
        · exact Nat.lt_succ_self _
        · exact Nat.lt_succ_of_lt (h p hp)
      have hlater : ∀ p ∈ around, p.index < later := fun p hp =>
        Nat.lt_of_lt_of_le (h p hp) (by omega)
      -- a node with a number below `later` is not around the sites behind the children
      have hbehind : ∀ p : Place, next ≤ p.index → p.index < later →
          ∀ d ∈ rest.sites later around, p ∉ d.around := by
        intro p hfrom hto d hd hp
        rcases (around_of_mem_sites hd).2 p hp with hp | hindex
        · exact absurd (h p hp) (by omega)
        · omega
      have hbelow : (children.visits (next + 1) (place :: around)).Sublist
          (children.visits (next + 1) (place :: around)
            ++ .exit ⟨place, around⟩ :: rest.visits later around) :=
        List.sublist_append_left _ _
      rw [sites, List.pairwise_cons, List.pairwise_append]
      refine ⟨fun d hd => ?_, ?_, ?_, fun s hs d hd => ?_⟩
      · rw [visits, Nests]
        rcases List.mem_append.1 hd with hd | hd
        · -- below the node
          have hin : place ∈ d.around :=
            (around_of_mem_sites hd).1.subset List.mem_cons_self
          rw [if_pos hin]
          exact List.Sublist.cons_cons _ ((enter_exit_sublist hd).append
            (List.Sublist.cons_cons _ (List.nil_sublist _)))
        · -- behind the node
          have hnext : next < later := by omega
          rw [if_neg (hbehind place (Nat.le_refl _) hnext d hd)]
          exact List.Sublist.cons_cons _ (List.Sublist.trans
            (List.Sublist.cons_cons _ (enter_exit_sublist hd)) (List.sublist_append_right _ _))
      · exact (ihc _ _ hplace).imp fun hnests => hnests.mono (List.Sublist.cons _ hbelow)
      · refine (ihr _ _ hlater).imp fun hnests => hnests.mono (List.Sublist.cons _ ?_)
        exact List.Sublist.trans (List.sublist_cons_self _ _) (List.sublist_append_right _ _)
      · obtain ⟨hfrom, hto⟩ := index_of_mem_sites hs
        have hout := hbehind s.toPlace (by omega) (by omega) d hd
        refine (nests_of_append hs hd hout).mono (List.Sublist.cons _ ?_)
        exact List.Sublist.append_left (List.sublist_cons_self _ _) _

namespace Node

theorem map_event_visits (n : Node) : n.visits.map Visit.event = n.events := by
  rw [visits, Forest.map_event_visits, events_toForest]

/-- **The visits of a tree** are the walk over it. -/
theorem isWalk_visits (n : Node) : IsWalk n n.visits where
  entered_eq := n.toForest.filterMap_entered_visits 0 []
  left_perm := n.toForest.filterMap_left_visits 0 []
  nests := n.toForest.pairwise_sites 0 [] (by simp)

end Node

end QueryAudit
