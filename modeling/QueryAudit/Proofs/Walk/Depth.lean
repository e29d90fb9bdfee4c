import Mathlib.Order.Bounds.Basic
import QueryAudit.Proofs.Data.Bracketed
import QueryAudit.Proofs.Tree.Enumeration
import QueryAudit.Proofs.Walk.Site

/-!
# QueryAudit.Proofs.Walk.Depth

How many nodes a walk has open, next to what the traversals with an explicit stack find.

* `Forest.bracketed_events`, `Node.bracketed_walkEvents` — a walk has as many nodes open as
  the tree nests;
* `traversals_agree` — the enumeration and the depth as recursions, and the depth as the
  largest number of open nodes.
-/

namespace QueryAudit

/-- Whether an event is the exit of a node. -/
def Event.isExit : Event → Bool
  | .exit _ => true
  | _ => false

/-- **The walk over a forest** has as many nodes open as stand in one another. -/
theorem Forest.bracketed_events (f : Forest) :
    Bracketed Event.isEnter Event.isExit f.events f.depth := by
  induction f with
  | nil => exact .of_none rfl rfl
  | leaf l rest ih => exact ih
  | node label children rest ihc ihr =>
      have hnode := (ihc.around (.enter ⟨label, children⟩) (.exit ⟨label, children⟩)
        ⟨rfl, rfl⟩ ⟨rfl, rfl⟩).append ihr
      rw [List.cons_append, List.append_assoc] at hnode
      exact hnode

namespace Node

/-- The beginning and the end of a walk open nothing. -/
theorem bracketed_walkEvents (n : Node) :
    Bracketed Event.isEnter Event.isExit (walkEvents n) n.depth := by
  have hroot := n.children.bracketed_events.around (.enter n) (.exit n) ⟨rfl, rfl⟩ ⟨rfl, rfl⟩
  have hend : Bracketed Event.isEnter Event.isExit [.exitSource n] 0 := .of_none rfl rfl
  have hwalk := (hroot.behind [.enterSource n] rfl rfl).append hend
  rw [Nat.max_zero] at hwalk
  exact hwalk

/-- **The traversals with an explicit stack.**  The enumeration gives, one item after the
other, as many nodes as the tree has: the node, and then what the enumerations of its child
nodes give, from left to right.  The depth is one more than the largest depth of the child
nodes, and it is the largest number of nodes that are entered and not yet left at any moment
of the walk over the tree. -/
theorem traversals_agree (n : Node) :
    (∀ k, (next? (n.stackAfter k)).map Prod.fst = n.descendants[k]?) ∧
    n.descendants.length = n.nodeCount ∧
    n.nodeCount = 1 + (n.childNodes.map nodeCount).sum ∧
    n.descendants = n :: n.childNodes.flatMap descendants ∧
    n.depthByStack = 1 + (n.childNodes.map depthByStack).foldr max 0 ∧
    (∀ k, ((walkEvents n).take k).countP Event.isExit
      ≤ ((walkEvents n).take k).countP Event.isEnter) ∧
    IsGreatest {opened | ∃ k, ((walkEvents n).take k).countP Event.isEnter
      = ((walkEvents n).take k).countP Event.isExit + opened} n.depthByStack := by
  have hwalk := n.bracketed_walkEvents
  rw [← depthByStack_eq_depth] at hwalk
  refine ⟨fun k => ?_, n.length_descendants, n.nodeCount_eq, n.descendants_eq, n.depthByStack_eq,
    hwalk.closed_le, hwalk.attained, ?_⟩
  · rw [descendants_eq_preorder, map_fst_next?_stackAfter]
  · rintro opened ⟨k, hk⟩
    have hle := hwalk.opened_le k
    omega

end Node

end QueryAudit
