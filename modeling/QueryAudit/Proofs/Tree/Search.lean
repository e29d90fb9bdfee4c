import QueryAudit.Tree.Search

/-!
# QueryAudit.Proofs.Tree.Search

Searches in a tree, said of its nodes in document order.

* `find?_eq_find?_preorder` — the first node of a kind;
* `preorder_subset` — what lies below a node lies below every node around it;
* `descendants_eq_preorder` — the enumeration with an explicit stack;
* `depthByStack_eq_depth` — the depth that is found with an explicit stack.
-/

namespace QueryAudit

/-! ## nodes of a kind -/

theorem Node.is_eq_true_iff {n : Node} {kind : String} : n.is kind = true ↔ n.kind = kind := by
  simp [is]

theorem Forest.findPath?_singleton (f : Forest) (kind : String) :
    f.findPath? [kind] = f.preorder.find? (·.is kind) := by
  induction f with
  | nil => rfl
  | leaf l rest ih => exact ih
  | node label children rest ihc ihr =>
      rw [findPath?, preorder, List.find?_cons, List.find?_append]
      by_cases hkind : label.kind = kind
      · simp [hkind, Node.is]
      · rw [if_neg hkind, ihc, ihr]
        have his : Node.is ⟨label, children⟩ kind = false := by simpa [Node.is] using hkind
        rw [his]
        cases children.preorder.find? (·.is kind) <;> rfl

namespace Node

/-- **The first node of a kind** is the first one in document order. -/
theorem find?_eq_find?_preorder (n : Node) (kind : String) :
    n.find? kind = n.preorder.find? (·.is kind) := by
  rw [find?, findPath?, Forest.findPath?_singleton]
  simp [toForest, Forest.preorder, preorder]

theorem find?_eq_none_iff {n : Node} {kind : String} :
    n.find? kind = none ↔ ∀ d ∈ n.preorder, d.kind ≠ kind := by
  simp [find?_eq_find?_preorder, is]

end Node

/-! ## nodes below nodes -/

theorem Forest.preorder_subset {f : Forest} {n : Node} (h : n ∈ f.preorder) :
    n.preorder ⊆ f.preorder := by
  induction f with
  | nil => simp [preorder] at h
  | leaf l rest ih => exact ih h
  | node label children rest ihc ihr =>
      rw [preorder] at h ⊢
      rcases List.mem_cons.1 h with rfl | h
      · exact List.cons_subset_cons _ (List.subset_append_left _ _)
      · refine List.subset_cons_of_subset _ ?_
        rcases List.mem_append.1 h with h | h
        · exact List.subset_append_of_subset_left _ (ihc h)
        · exact List.subset_append_of_subset_right _ (ihr h)

/-- What lies below a node lies below the nodes around it. -/
theorem Node.preorder_subset {n d : Node} (h : d ∈ n.preorder) : d.preorder ⊆ n.preorder := by
  rcases List.mem_cons.1 h with rfl | h
  · exact List.Subset.refl _
  · exact List.subset_cons_of_subset _ (Forest.preorder_subset h)

/-! ## with an explicit stack -/

theorem Forest.preorder_eq_flatMap (f : Forest) : f.preorder = f.nodes.flatMap Node.preorder := by
  induction f with
  | nil => rfl
  | leaf l rest ih => exact ih
  | node label children rest _ ih =>
      rw [preorder, nodes, List.flatMap_cons, ih]
      rfl

namespace Node

/-- What is pending on the stack is visited tree by tree. -/
theorem visitStack_eq (visited stack : List Node) :
    visitStack visited stack = visited.reverse ++ stack.flatMap preorder := by
  fun_induction visitStack visited stack with
  | case1 visited => simp
  | case2 visited n stack ih =>
      rw [ih, List.flatMap_append, childNodes, ← Forest.preorder_eq_flatMap]
      simp [preorder]

/-- **The enumeration by a stack** is in document order. -/
theorem descendants_eq_preorder (n : Node) : n.descendants = n.preorder := by
  simp [descendants, visitStack_eq]

end Node

/-- The deepest level below the children of a node, when these are on one level. -/
theorem Forest.foldr_nodes (f : Forest) (level most : Nat) (h : level ≤ most) :
    f.nodes.foldr (fun n most => max most (level + 1 + n.children.depth)) most
      = max most (level + f.depth) := by
  induction f with
  | nil =>
      rw [nodes, List.foldr_nil, depth]
      omega
  | leaf l rest ih => exact ih
  | node label children rest _ ih =>
      rw [nodes, List.foldr_cons, ih, depth]
      dsimp only
      omega

namespace Node

theorem deepest_eq (most : Nat) (stack : List (Node × Nat)) :
    deepest most stack
      = stack.foldl (fun most entry => max most (entry.2 + entry.1.children.depth)) most := by
  fun_induction deepest most stack with
  | case1 => rfl
  | case2 most n level stack ih =>
      rw [ih, List.foldl_append, List.foldl_reverse, List.foldr_map, List.foldl_cons]
      dsimp only
      rw [childNodes, Forest.foldr_nodes _ _ _ (Nat.le_max_right _ _)]
      congr 1
      omega

/-- **The depth by a stack** is the depth. -/
theorem depthByStack_eq_depth (n : Node) : n.depthByStack = n.depth := by
  rw [depthByStack, deepest_eq, depth, List.foldl_cons, List.foldl_nil]
  dsimp only
  omega

end Node

end QueryAudit
