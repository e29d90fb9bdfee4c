import Mathlib.Data.List.Basic
import QueryAudit.Proofs.Tree.Search
import QueryAudit.Proofs.Walk.Site

/-!
# QueryAudit.Proofs.Tree.Path

The search along a path of kinds.  A site ends a path when it has the last kind of it and
the other kinds occur, in their order, among the nodes around the site.

The search takes the next kind off the path at the first node that has it, on every way
down from the root, and never goes back.  Nothing is lost by that: of a list of kinds the
part that `remaining` leaves is the shortest that can be left.

* `sublist_iff_remaining` — kinds occur in their order when none of them remains;
* `Forest.findPath?_remaining` — the search in a part of a tree, with what remains of the path
  there;
* `findPath?_first` — the search finds the first site that ends the path.
-/

namespace QueryAudit

/-- The kinds of the nodes around a site, outermost first. -/
def kindsAround (around : List Place) : List String := around.reverse.map (·.node.kind)

/-- A site ends a path: it has the last kind, and the kinds before it occur in their order
among the nodes around the site. -/
def Site.EndsPath (s : Site) (kinds : List String) (kind : String) : Prop :=
  s.node.kind = kind ∧ kinds.Sublist (kindsAround s.around)

instance (s : Site) (kinds : List String) (kind : String) : Decidable (s.EndsPath kinds kind) :=
  inferInstanceAs (Decidable (_ ∧ _))

/-! ## what remains of a path -/

/-- Take the next kind off a path at a node that has it. -/
def advance : List String → String → List String
  | [], _ => []
  | next :: path, kind => if kind = next then path else next :: path

/-- What is left of a path after nodes of the given kinds. -/
def remaining (path kinds : List String) : List String := kinds.foldl advance path

theorem remaining_nil (kinds : List String) : remaining [] kinds = [] := by
  induction kinds with
  | nil => rfl
  | cons kind kinds ih => exact ih

theorem remaining_cons (path : List String) (kind : String) (kinds : List String) :
    remaining path (kind :: kinds) = remaining (advance path kind) kinds := rfl

theorem remaining_concat (path kinds : List String) (kind : String) :
    remaining path (kinds ++ [kind]) = advance (remaining path kinds) kind := by
  rw [remaining, List.foldl_append]
  rfl

/-- **Greedy matching** is complete: when kinds occur in their order, none remains. -/
theorem sublist_iff_remaining (path kinds : List String) :
    path.Sublist kinds ↔ remaining path kinds = [] := by
  induction kinds generalizing path with
  | nil => exact List.sublist_nil
  | cons kind kinds ih =>
      cases path with
      | nil => exact iff_of_true (List.nil_sublist _) (remaining_nil _)
      | cons next path =>
          rw [remaining_cons, ← ih, advance]
          by_cases hkind : kind = next
          · -- the rest of the path may as well be looked for behind the first match
            rw [if_pos hkind, List.cons_sublist_cons']
            constructor
            · rintro (hlater | ⟨-, hrest⟩)
              · exact List.sublist_of_cons_sublist hlater
              · exact hrest
            · exact fun hrest => Or.inr ⟨hkind.symm, hrest⟩
          · rw [if_neg hkind, List.cons_sublist_cons']
            exact or_iff_left fun h => hkind h.1.symm

/-- The last kind stays last as long as any of the path remains. -/
theorem remaining_append_singleton {path kinds : List String} {last : String}
    (h : remaining (path ++ [last]) kinds ≠ []) :
    remaining (path ++ [last]) kinds = remaining path kinds ++ [last] := by
  induction kinds generalizing path with
  | nil => rfl
  | cons kind kinds ih =>
      rw [remaining_cons] at h ⊢
      rw [remaining_cons]
      cases path with
      | nil =>
          rw [List.nil_append, advance] at h ⊢
          by_cases hkind : kind = last
          · rw [if_pos hkind, remaining_nil] at h
            contradiction
          · rw [if_neg hkind] at h ⊢
            exact @ih [] h
      | cons next path =>
          have hadvance : advance (next :: path ++ [last]) kind
              = advance (next :: path) kind ++ [last] := by
            simp only [List.cons_append, advance]
            split <;> rfl
          rw [hadvance] at h ⊢
          exact ih h

/-- **The path is over** at the first node of the last kind behind the others. -/
theorem advance_remaining_eq_nil_iff {path kinds : List String} {last : String}
    (h : remaining (path ++ [last]) kinds ≠ []) (kind : String) :
    advance (remaining (path ++ [last]) kinds) kind = []
      ↔ kind = last ∧ path.Sublist kinds := by
  rw [remaining_append_singleton h, sublist_iff_remaining]
  cases remaining path kinds with
  | nil => simp [advance]
  | cons next rest =>
      rw [List.cons_append, advance]
      split <;> simp

/-! ## the search -/

theorem kindsAround_cons (place : Place) (around : List Place) :
    kindsAround (place :: around) = kindsAround around ++ [place.node.kind] := by
  simp [kindsAround]

/-- At a node the search takes a kind off the path if it can, and goes on below the node
before it goes on behind it. -/
theorem Forest.findPath?_node (label : Label) (children rest : Forest) {path : List String}
    (h : path ≠ []) :
    (Forest.node label children rest).findPath? path
      = (if advance path label.kind = [] then some ⟨label, children⟩
          else children.findPath? (advance path label.kind)).or (rest.findPath? path) := by
  obtain ⟨kind, kinds, rfl⟩ := List.exists_cons_of_ne_nil h
  rw [findPath?, advance]
  by_cases hkind : label.kind = kind
  · cases kinds with
    | nil => simp [hkind]
    | cons next kinds =>
        simp only [hkind, if_true, List.isEmpty_cons, Bool.false_eq_true, if_false,
          reduceCtorEq]
        cases children.findPath? (next :: kinds) <;> rfl
  · simp only [hkind, if_false, reduceCtorEq]
    cases children.findPath? (kind :: kinds) <;> rfl

/-- **The search in a part of a tree**, with what remains of the path there, finds the first
site that ends the whole path. -/
theorem Forest.findPath?_remaining (f : Forest) (next : Nat) (around : List Place)
    (kinds : List String) (kind : String)
    (h : remaining (kinds ++ [kind]) (kindsAround around) ≠ []) :
    f.findPath? (remaining (kinds ++ [kind]) (kindsAround around))
      = ((f.sites next around).find? (·.EndsPath kinds kind)).map (·.node) := by
  induction f generalizing next around with
  | nil => rfl
  | leaf l rest ih => exact ih next around h
  | node label children rest ihc ihr =>
      have hhere := advance_remaining_eq_nil_iff h label.kind
      rw [findPath?_node _ _ _ h, ihr (next + 1 + children.nodeCount) around h, sites]
      by_cases hend : advance (remaining (kinds ++ [kind]) (kindsAround around)) label.kind = []
      · rw [if_pos hend, List.find?_cons_of_pos]
        · rfl
        · exact decide_eq_true (hhere.1 hend)
      · -- the path goes on below the node with the kinds that remain behind it
        have hbelow := remaining_concat (kinds ++ [kind]) (kindsAround around) label.kind
        rw [if_neg hend, List.find?_cons_of_neg, List.find?_append, Option.map_or]
        · rw [← hbelow, ← kindsAround_cons ⟨next, ⟨label, children⟩⟩]
          rw [ihc (next + 1) (⟨next, ⟨label, children⟩⟩ :: around)
            (by rw [kindsAround_cons]; exact hbelow ▸ hend)]
        · exact mt (fun hends => hhere.2 (of_decide_eq_true hends)) hend

/-- **The search along a path** finds the first node, in document order, that ends the path,
and it finds nothing only when no node ends it.  So a node of a kind is found exactly when
there is one in the tree, and it is the first of that kind. -/
theorem findPath?_first (n : Node) (kinds : List String) (kind : String) :
    n.sites.map (·.node) = n.descendants ∧
    n.findPath? (kinds ++ [kind])
      = (n.sites.find? (·.EndsPath kinds kind)).map (·.node) ∧
    (n.findPath? (kinds ++ [kind]) = none ↔ ∀ s ∈ n.sites, ¬ s.EndsPath kinds kind) ∧
    n.find? kind = n.descendants.find? (·.is kind) ∧
    (n.contains kind = true ↔ ∃ d ∈ n.descendants, d.kind = kind) := by
  have hfound : n.findPath? (kinds ++ [kind])
      = (n.sites.find? (·.EndsPath kinds kind)).map (·.node) :=
    n.toForest.findPath?_remaining 0 [] kinds kind (by simp [kindsAround, remaining])
  have hfirst : n.find? kind = n.descendants.find? (·.is kind) := by
    rw [n.find?_eq_find?_preorder, n.descendants_eq_preorder]
  refine ⟨?_, hfound, ?_, hfirst, ?_⟩
  · rw [map_node_sites, n.descendants_eq_preorder]
  · simp [hfound]
  · simp [Node.contains, hfirst, Node.is]

end QueryAudit
