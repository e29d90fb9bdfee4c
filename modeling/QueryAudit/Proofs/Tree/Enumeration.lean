import Mathlib.Algebra.GroupWithZero.Nat
import QueryAudit.Proofs.Tree.Search

/-!
# QueryAudit.Proofs.Tree.Enumeration

The enumeration of a tree item by item, and the two traversals with an explicit stack as
recursions over the child nodes.

* `Node.map_fst_next?_stackAfter` — the items are the nodes in document order, and the
  enumeration ends behind the last of them;
* `Node.descendants_eq`, `Node.nodeCount_eq`, `Node.depthByStack_eq` — what the traversals
  give for a node, from what they give for its child nodes.
-/

namespace QueryAudit

/-! ## item by item -/

namespace Node

/-- One step of the enumeration: the node on top of the stack, and the stack with its child
nodes in its place.  There is none when nothing is pending. -/
def next? : List Node → Option (Node × List Node)
  | [] => none
  | n :: stack => some (n, n.childNodes ++ stack)

/-- The stack after some steps of the enumeration of a tree. -/
def stackAfter (n : Node) : Nat → List Node
  | 0 => [n]
  | k + 1 =>
    match next? (n.stackAfter k) with
    | none => n.stackAfter k
    | some (_, stack) => stack

/-- **One step** takes the first of the nodes that are pending. -/
theorem next?_cases (stack : List Node) :
    (next? stack = none ∧ stack.flatMap preorder = []) ∨
      ∃ n rest, next? stack = some (n, rest) ∧
        stack.flatMap preorder = n :: rest.flatMap preorder := by
  cases stack with
  | nil => exact Or.inl ⟨rfl, rfl⟩
  | cons n stack =>
      refine Or.inr ⟨n, n.childNodes ++ stack, rfl, ?_⟩
      rw [List.flatMap_cons, List.flatMap_append, preorder, childNodes, Forest.preorder_eq_flatMap,
        List.cons_append]

/-- After some steps the nodes behind as many are pending. -/
theorem flatMap_preorder_stackAfter (n : Node) (k : Nat) :
    (n.stackAfter k).flatMap preorder = n.preorder.drop k := by
  induction k with
  | zero => exact List.append_nil _
  | succ k ih =>
      rw [stackAfter, ← List.drop_drop, ← ih]
      rcases next?_cases (n.stackAfter k) with ⟨hnext, hempty⟩ | ⟨d, rest, hnext, hcons⟩
      · rw [hnext, hempty, List.drop_nil]
      · rw [hnext, hcons]
        rfl

/-- **The items** are the nodes in document order, and none comes behind the last. -/
theorem map_fst_next?_stackAfter (n : Node) (k : Nat) :
    (next? (n.stackAfter k)).map Prod.fst = n.preorder[k]? := by
  have hpending := n.flatMap_preorder_stackAfter k
  rw [← List.head?_drop, ← hpending]
  rcases next?_cases (n.stackAfter k) with ⟨hnext, hempty⟩ | ⟨d, rest, hnext, hcons⟩
  · rw [hnext, hempty]
    rfl
  · rw [hnext, hcons]
    rfl

end Node

/-! ## from the child nodes -/

theorem Forest.length_preorder (f : Forest) : f.preorder.length = f.nodeCount := by
  induction f with
  | nil => rfl
  | leaf l rest ih => exact ih
  | node label children rest ihc ihr =>
      rw [preorder, nodeCount, List.length_cons, List.length_append, ihc, ihr]
      omega

theorem Forest.depth_eq_foldr (f : Forest) : f.depth = (f.nodes.map Node.depth).foldr max 0 := by
  induction f with
  | nil => rfl
  | leaf l rest ih => exact ih
  | node label children rest _ ih =>
      rw [depth, nodes, List.map_cons, List.foldr_cons, ih]
      rfl

namespace Node

theorem totalCount_eq_sum (ns : List Node) : totalCount ns = (ns.map nodeCount).sum := by
  induction ns with
  | nil => rfl
  | cons n ns ih => rw [totalCount, List.map_cons, List.sum_cons, ih]

/-- The nodes of a tree are its root and those of the trees of the child nodes. -/
theorem nodeCount_eq (n : Node) : n.nodeCount = 1 + (n.childNodes.map nodeCount).sum := by
  rw [nodeCount, ← Forest.totalCount_nodes, ← totalCount_eq_sum, childNodes, Nat.add_comm]

theorem length_descendants (n : Node) : n.descendants.length = n.nodeCount := by
  rw [descendants_eq_preorder, preorder, List.length_cons, Forest.length_preorder, nodeCount]

/-- **The enumeration** is a node and the enumerations of its child nodes. -/
theorem descendants_eq (n : Node) : n.descendants = n :: n.childNodes.flatMap descendants := by
  have hpreorder : descendants = preorder := funext descendants_eq_preorder
  rw [hpreorder, preorder, childNodes, Forest.preorder_eq_flatMap]

/-- **The depth** is one more than the largest of the child nodes. -/
theorem depthByStack_eq (n : Node) :
    n.depthByStack = 1 + (n.childNodes.map depthByStack).foldr max 0 := by
  have hdepth : depthByStack = depth := funext depthByStack_eq_depth
  rw [hdepth, depth, Forest.depth_eq_foldr, childNodes, Nat.add_comm]

end Node

end QueryAudit
