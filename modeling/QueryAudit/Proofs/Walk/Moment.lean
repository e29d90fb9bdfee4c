import Mathlib.Data.List.Basic
import QueryAudit.Proofs.Walk.Calls
import QueryAudit.Proofs.Walk.Site

/-!
# QueryAudit.Proofs.Walk.Moment

What has happened when an event of a unit comes up.  A node that is entered has the nodes
around it still open; a node that is left has everything below it behind itself.

* `SourceUnit.exists_enter_of_mem_sites` — every site is entered at some event;
* `Node.length_around_le_depth` — no more nodes are open than the tree nests;
* `SourceUnit.foldl_atEnter_of_exit` — what is remembered when a node is left;
* `SourceUnit.opened_add_leaves` — the nodes of a kind that are open.
-/

namespace QueryAudit

/-! ## events and nodes -/

namespace Event

/-- Whether a node of a kind is entered. -/
def enters (kind : String) : Event → Bool
  | .enter n => n.is kind
  | _ => false

/-- Whether a node of a kind is left. -/
def leaves (kind : String) : Event → Bool
  | .exit n => n.is kind
  | _ => false

@[simp] theorem enters_enter (kind : String) (n : Node) : (enter n).enters kind = n.is kind := rfl
@[simp] theorem enters_exit (kind : String) (n : Node) : (exit n).enters kind = false := rfl
@[simp] theorem leaves_enter (kind : String) (n : Node) : (enter n).leaves kind = false := rfl
@[simp] theorem leaves_exit (kind : String) (n : Node) : (exit n).leaves kind = n.is kind := rfl

end Event

theorem Forest.exit_mem_events_iff (f : Forest) (n : Node) :
    .exit n ∈ f.events ↔ n ∈ f.preorder := by
  induction f with
  | nil => simp [events, preorder]
  | leaf l rest ih => exact ih
  | node label children rest ihc ihr =>
      simp [events, preorder, ihc, ihr, or_left_comm]

/-- Every node of a tree is left, and no others are. -/
theorem Node.exit_mem_events_iff (root n : Node) : .exit n ∈ root.events ↔ n ∈ root.preorder := by
  rw [← events_toForest, Forest.exit_mem_events_iff]
  simp [toForest, Forest.preorder, preorder]

/-- A memory that an entry changes, and nothing else does. -/
def Event.atEnter {α : Type*} (enter : α → Node → α) (a : α) : Event → α
  | .enter n => enter a n
  | _ => a

/-- Such a memory comes to the nodes in document order. -/
theorem Forest.foldl_atEnter {α : Type*} (enter : α → Node → α) (a : α) (f : Forest) :
    f.events.foldl (Event.atEnter enter) a = f.preorder.foldl enter a := by
  induction f generalizing a with
  | nil => rfl
  | leaf l rest ih => exact ih a
  | node label children rest ihc ihr =>
      rw [events, preorder, List.foldl_cons, List.foldl_cons, List.foldl_append, List.foldl_cons,
        List.foldl_append, ihc, ihr]
      rfl

theorem Forest.eq_append_of_exit {f : Forest} {n : Node} {before after : List Event}
    (h : f.events = before ++ .exit n :: after) :
    ∃ earlier, before = earlier ++ .enter n :: n.children.events := by
  induction f generalizing before after with
  | nil => simp [events] at h
  | leaf l rest ih => exact ih h
  | node label children rest ihc ihr =>
      rw [events] at h
      cases before with
      | nil => simp at h
      | cons first before =>
          obtain ⟨rfl, htail⟩ := List.cons.inj h
          -- the exit is below the node, or it is that of the node, or it is behind the node
          rcases List.append_eq_append_iff.1 htail with
            ⟨met, rfl, hexit⟩ | ⟨met, hchildren, hexit⟩
          · cases met with
            | nil =>
                cases (List.cons.inj hexit).1
                exact ⟨[], by simp⟩
            | cons left met =>
                obtain ⟨earlier, rfl⟩ := ihr (List.cons.inj hexit).2
                exact ⟨.enter ⟨label, children⟩ :: (children.events ++ left :: earlier), by simp⟩
          · cases met with
            | nil =>
                cases (List.cons.inj hexit).1
                exact ⟨[], by simp [hchildren]⟩
            | cons left met =>
                obtain rfl := (List.cons.inj hexit).1
                obtain ⟨earlier, rfl⟩ := ihc hchildren
                exact ⟨.enter ⟨label, children⟩ :: earlier, rfl⟩

/-- **Right before a node is left** it has been entered and everything below it walked. -/
theorem Node.eq_append_of_exit {root n : Node} {before after : List Event}
    (h : root.events = before ++ .exit n :: after) :
    ∃ earlier, before = earlier ++ .enter n :: n.children.events :=
  Forest.eq_append_of_exit (root.events_toForest.trans h)

/-! ## open nodes -/

namespace Trail

theorem sound_foldl {t : Trail} {events : List Event} (hsound : t.Sound)
    (hallows : t.Allows events) : (events.foldl on t).Sound :=
  (foldl_induct (motive := fun _ (_ : ExportMapper) => True)
    (fun _ _ _ _ _ => trivial) (fun _ _ _ _ _ _ _ => trivial) hsound
    (r := .initial) trivial hallows).1

/-- How many nodes of a kind are still to be left. -/
def opened (kind : String) (t : Trail) : Nat := t.around.countP (·.node.is kind)

theorem opened_enter (kind : String) (t : Trail) (n : Node) :
    (t.enter n).opened kind = t.opened kind + if n.is kind then 1 else 0 := by
  rw [opened, around_enter, List.countP_cons]
  rfl

theorem opened_exit (kind : String) {t : Trail} {place : Place} {outer : List Place}
    (h : t.around = place :: outer) :
    t.opened kind = t.exit.opened kind + if place.node.is kind then 1 else 0 := by
  rw [opened, opened, around_exit, h, List.countP_cons, List.tail_cons]

/-- **The open nodes of a kind** are those that have been entered and not left. -/
theorem opened_add_leaves (kind : String) {t : Trail} {events : List Event}
    (hallows : t.Allows events) :
    (events.foldl on t).opened kind + events.countP (·.leaves kind)
      = t.opened kind + events.countP (·.enters kind) := by
  induction events generalizing t with
  | nil => rfl
  | cons event events ih =>
      rw [List.foldl_cons, List.countP_cons, List.countP_cons]
      cases event with
      | enter n =>
          have hrest := ih hallows
          rw [opened_enter] at hrest
          cases hkind : n.is kind <;> simp [on, hkind] at hrest ⊢ <;> omega
      | exit n =>
          obtain ⟨hhead, hallows⟩ := hallows
          obtain ⟨place, hplace, rfl⟩ := Option.map_eq_some_iff.1 hhead
          obtain ⟨outer, hcons⟩ := List.head?_eq_some_iff.1 hplace
          have hrest := ih hallows
          rw [opened_exit kind hcons]
          cases hkind : place.node.is kind <;> simp [on, hkind] <;> omega
      | enterSource root => exact hallows.elim
      | exitSource root => exact hallows.elim
      | report log => exact hallows.elim

end Trail

/-- The nodes around a site nest no deeper than the tree. -/
theorem Forest.length_around_lt {f : Forest} {next : Nat} {around : List Place} {s : Site}
    (h : s ∈ f.sites next around) : s.around.length < around.length + f.depth := by
  induction f generalizing next around with
  | nil => simp [sites] at h
  | leaf l rest ih => exact ih h
  | node label children rest ihc ihr =>
      rw [depth]
      rcases List.mem_cons.1 h with rfl | h
      · dsimp only
        omega
      · rcases List.mem_append.1 h with h | h
        · have hlength := ihc h
          rw [List.length_cons] at hlength
          omega
        · have hlength := ihr h
          omega

/-- At any moment of a walk no more nodes are open than stand in one another. -/
theorem Node.length_around_le_depth {root : Node} {before after : List Event}
    (h : root.events = before ++ after) :
    (before.foldl Trail.on .start).around.length ≤ root.depth := by
  have hsound := Trail.sound_foldl Trail.sound_start (Node.allows_of_events_eq h)
  cases haround : (before.foldl Trail.on .start).around with
  | nil => exact Nat.zero_le _
  | cons place outer =>
      obtain ⟨s, hs, -, rfl⟩ := hsound.exists_site_of_cons haround
      have hmem : s ∈ root.toForest.sites 0 [] := (Node.entered_isPrefix_sites h).subset hs
      have hlength := Forest.length_around_lt hmem
      simpa [Node.toForest, Forest.depth, Node.depth, Nat.lt_add_one_iff] using hlength

/-! ## the events of a unit -/

theorem Trail.exists_enter_of_mem_foldl {t : Trail} {events : List Event} {s : Site}
    (h : s ∈ (events.foldl on t).entered) :
    s ∈ t.entered ∨ ∃ before after, events = before ++ .enter s.node :: after ∧
      (before.foldl on t).site s.node = s := by
  induction events generalizing t with
  | nil => exact Or.inl h
  | cons event events ih =>
      rcases ih h with h | ⟨before, after, rfl, hsite⟩
      · cases event with
        | enter n =>
            rcases List.mem_append.1 h with h | h
            · exact Or.inl h
            · cases List.mem_singleton.1 h
              exact Or.inr ⟨[], events, rfl, rfl⟩
        | _ => exact Or.inl h
      · exact Or.inr ⟨event :: before, after, rfl, hsite⟩

/-- A list falls apart at each of its elements. -/
theorem eq_take_append_cons_drop {α : Type*} {l : List α} {k : Nat} {a : α} (h : l[k]? = some a) :
    l = l.take k ++ a :: l.drop (k + 1) := by
  obtain ⟨hlt, rfl⟩ := List.getElem?_eq_some_iff.1 h
  rw [List.getElem_cons_drop, List.take_append_drop]

theorem take_add_one_of_getElem? {α : Type*} {l : List α} {k : Nat} {a : α} (h : l[k]? = some a) :
    l.take (k + 1) = l.take k ++ [a] := by
  rw [List.take_add_one, h]
  rfl

/-- A fold is where it was when no step changes anything. -/
theorem foldl_eq_self {α β : Type*} {f : α → β → α} {a : α} {l : List β}
    (h : ∀ b ∈ l, f a b = a) : l.foldl f a = a := by
  induction l with
  | nil => rfl
  | cons b l ih =>
      rw [List.foldl_cons, h b List.mem_cons_self]
      exact ih fun c hc => h c (List.mem_cons_of_mem b hc)

namespace SourceUnit

variable {u : SourceUnit}

/-- An event at a node comes up in the walk over the tree. -/
theorem exists_split {event : Event} {before after : List Event}
    (h : u.events = before ++ event :: after)
    (hnode : event ∉ [.enterSource u.tree, .exitSource u.tree, .report (.ofProblems u.problems)]) :
    ∃ met rest, before = .enterSource u.tree :: met ∧ u.tree.events = met ++ event :: rest := by
  rw [u.events_eq] at h
  cases before with
  | nil =>
      obtain ⟨rfl, -⟩ := List.cons.inj h
      exact absurd List.mem_cons_self hnode
  | cons first met =>
      obtain ⟨rfl, htail⟩ := List.cons.inj h
      rcases List.append_eq_append_iff.1 htail with
        ⟨ending, -, hending⟩ | ⟨ending, htree, hending⟩
      · refine absurd (List.mem_cons_of_mem _ ?_) hnode
        rw [hending]
        exact List.mem_append_right _ List.mem_cons_self
      · cases ending with
        | nil =>
            refine absurd (List.mem_cons_of_mem _ ?_) hnode
            rw [List.nil_append] at hending
            rw [← hending]
            exact List.mem_cons_self
        | cons head ending =>
            obtain ⟨rfl, -⟩ := List.cons.inj hending
            exact ⟨met, ending, rfl, htree⟩

/-- An event of the walk over the tree is an event of the unit. -/
theorem events_eq_of_tree {event : Event} {met rest : List Event}
    (h : u.tree.events = met ++ event :: rest) :
    ∃ after, u.events = (.enterSource u.tree :: met) ++ event :: after := by
  refine ⟨rest ++ [.exitSource u.tree, .report (.ofProblems u.problems)], ?_⟩
  rw [u.events_eq, h]
  simp

/-- The end of a unit opens and leaves no nodes. -/
theorem foldl_ending (t : Trail) {ending : List Event}
    (h : ending ⊆ [.exitSource u.tree, .report (.ofProblems u.problems)]) :
    ending.foldl Trail.on t = t := by
  refine foldl_eq_self fun event hevent => ?_
  rcases List.mem_pair.1 (h hevent) with rfl | rfl <;> rfl

/-- **At any moment of a unit** no more nodes are open than stand in one another. -/
theorem length_around_le_depth {before after : List Event} (h : u.events = before ++ after) :
    (before.foldl Trail.on .start).around.length ≤ u.tree.depth := by
  rcases u.events_eq_append h with rfl | ⟨met, rest, rfl, htree, -⟩ | ⟨ending, rfl, hending⟩
  · exact Nat.zero_le _
  · have hlength := Node.length_around_le_depth htree
    exact hlength
  · rw [List.foldl_cons, List.foldl_append, foldl_ending _ hending]
    exact Node.length_around_le_depth (List.append_nil _).symm

/-- **The open nodes of a kind** at any moment of a unit are those that have been entered and
not left. -/
theorem opened_add_leaves (kind : String) {before after : List Event}
    (h : u.events = before ++ after) :
    (before.foldl Trail.on .start).opened kind + before.countP (·.leaves kind)
      = before.countP (·.enters kind) := by
  rcases u.events_eq_append h with rfl | ⟨met, rest, rfl, htree, -⟩ | ⟨ending, rfl, hending⟩
  · rfl
  · have hcount := Trail.opened_add_leaves kind (Node.allows_of_events_eq htree)
    exact hcount.trans (Nat.zero_add _)
  · have hcount := Trail.opened_add_leaves kind u.tree.allows_events
    have hnone : ∀ p : Event → Bool, (∀ root, p (.exitSource root) = false) →
        (∀ log, p (.report log) = false) → ending.countP p = 0 := by
      intro p hsource hreport
      refine List.countP_eq_zero.2 fun event hevent => ?_
      rcases List.mem_pair.1 (hending hevent) with rfl | rfl
      · simp [hsource]
      · simp [hreport]
    rw [List.foldl_cons, List.foldl_append, foldl_ending _ hending]
    rw [List.countP_cons_of_neg (by simp [Event.leaves]), List.countP_append,
      List.countP_cons_of_neg (by simp [Event.enters]), List.countP_append,
      hnone (·.leaves kind) (fun _ => rfl) fun _ => rfl,
      hnone (·.enters kind) (fun _ => rfl) fun _ => rfl]
    exact hcount.trans (Nat.zero_add _)

/-- A node that is entered is entered at a site of the tree. -/
theorem site_mem_sites {n : Node} {before after : List Event}
    (h : u.events = before ++ .enter n :: after) :
    (before.foldl Trail.on .start).site n ∈ u.tree.sites := by
  obtain ⟨met, rest, rfl, htree⟩ := exists_split h (by simp)
  have hat := Trail.getElem?_sites htree
  exact List.mem_of_getElem? hat

/-- **Every site** is entered, with the nodes around it open. -/
theorem exists_enter_of_mem_sites {s : Site} (h : s ∈ u.tree.sites) :
    ∃ before after, u.events = before ++ .enter s.node :: after ∧
      (before.foldl Trail.on .start).site s.node = s := by
  have hentered : s ∈ (u.tree.events.foldl Trail.on .start).entered := by
    rw [Node.foldl_events]
    exact h
  rcases Trail.exists_enter_of_mem_foldl hentered with hnone | ⟨met, rest, htree, hsite⟩
  · exact absurd hnone List.not_mem_nil
  · obtain ⟨after, hevents⟩ := events_eq_of_tree htree
    exact ⟨_, after, hevents, hsite⟩

theorem enter_mem_events_iff {n : Node} : .enter n ∈ u.events ↔ n ∈ u.tree.preorder := by
  rw [← map_node_sites]
  constructor
  · intro h
    obtain ⟨before, after, hevents⟩ := List.append_of_mem h
    exact List.mem_map.2 ⟨_, site_mem_sites hevents, rfl⟩
  · intro h
    obtain ⟨s, hs, rfl⟩ := List.mem_map.1 h
    obtain ⟨before, after, hevents, -⟩ := exists_enter_of_mem_sites hs
    rw [hevents]
    exact List.mem_append_right _ List.mem_cons_self

theorem exit_mem_events_iff {n : Node} : .exit n ∈ u.events ↔ n ∈ u.tree.preorder := by
  rw [u.events_eq, List.mem_cons, List.mem_append, ← Node.exit_mem_events_iff]
  simp

theorem mem_preorder_of_exit {n : Node} {before after : List Event}
    (h : u.events = before ++ .exit n :: after) : n ∈ u.tree.preorder := by
  rw [← exit_mem_events_iff, h]
  exact List.mem_append_right _ List.mem_cons_self

/-- **A memory that entries change** has, when a node is left, come to the node and then to
everything below it. -/
theorem foldl_atEnter_of_exit {α : Type*} {enter : α → Node → α} {n : Node}
    {before after : List Event} (h : u.events = before ++ .exit n :: after) (a : α) :
    ∃ b, before.foldl (Event.atEnter enter) a = n.children.preorder.foldl enter (enter b n) := by
  obtain ⟨met, rest, rfl, htree⟩ := exists_split h (by simp)
  obtain ⟨earlier, rfl⟩ := Node.eq_append_of_exit htree
  refine ⟨earlier.foldl (Event.atEnter enter) a, ?_⟩
  rw [List.foldl_cons, List.foldl_append, List.foldl_cons, Forest.foldl_atEnter]
  rfl

end SourceUnit

end QueryAudit
