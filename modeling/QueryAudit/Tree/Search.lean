import QueryAudit.Tree.Basic

/-!
# QueryAudit.Tree.Search

Looking for nodes: by field or kind among the children of a node, by kind or by
a path of kinds anywhere below it, and the enumeration of a whole tree.

Every node of a tree can be listed in two ways.  `Node.preorder` is the
recursive definition; `Node.descendants` keeps the nodes still to be visited on
an explicit stack, and `Node.depthByStack` measures the nesting in the same
manner, so that neither needs a call stack as deep as the tree.

* `nodeCount_pop` — what is put on the stack for a node is smaller than the node.
-/

namespace QueryAudit

namespace Node

/-! ## among the children -/

/-- Whether a node has this kind. -/
def is (n : Node) (kind : String) : Bool := n.kind == kind

/-- The child nodes. -/
def childNodes (n : Node) : List Node := n.children.nodes

/-- The child leaves. -/
def tokens (n : Node) : List Leaf := n.children.leaves

/-- The first child with a field label. -/
def childByField? (n : Node) (field : String) : Option Element :=
  n.children.elements.find? (·.field == some field)

/-- Every child with a field label. -/
def childrenByField (n : Node) (field : String) : List Element :=
  n.children.elements.filter (·.field == some field)

/-- The first child with a field label, when it is a node. -/
def nodeByField? (n : Node) (field : String) : Option Node :=
  (n.childByField? field).bind Element.node?

/-- Whether an element fills this field of the node. -/
def hasField (n : Node) (field : String) : Bool := (n.childByField? field).isSome

/-- The first child node of a kind. -/
def childByKind? (n : Node) (kind : String) : Option Node :=
  n.childNodes.find? (·.is kind)

/-- Every child node of a kind. -/
def childrenByKind (n : Node) (kind : String) : List Node :=
  n.childNodes.filter (·.is kind)

end Node

/-! ## anywhere below -/

/-- The first node, in document order, that ends a path of kinds.  Once a node
has the first kind of the path, only the rest of the path is looked for below it. -/
def Forest.findPath? : Forest → List String → Option Node
  | .nil, _ => none
  | .leaf _ rest, path => rest.findPath? path
  | .node _ _ _, [] => none
  | .node label children rest, kind :: kinds =>
    let below :=
      if label.kind = kind then
        if kinds.isEmpty then some ⟨label, children⟩ else children.findPath? kinds
      else children.findPath? (kind :: kinds)
    match below with
    | some found => some found
    | none => rest.findPath? (kind :: kinds)

/-- Every node of a forest, in document order. -/
def Forest.preorder : Forest → List Node
  | .nil => []
  | .leaf _ rest => rest.preorder
  | .node label children rest => ⟨label, children⟩ :: (children.preorder ++ rest.preorder)

namespace Node

/-- The first node that ends a path of kinds, the node itself included. -/
def findPath? (n : Node) (path : List String) : Option Node := n.toForest.findPath? path

/-- The first node of a kind, the node itself included. -/
def find? (n : Node) (kind : String) : Option Node := n.findPath? [kind]

/-- Whether the node or a node below it has a kind. -/
def contains (n : Node) (kind : String) : Bool := (n.find? kind).isSome

/-- The node and every node below it, in document order. -/
def preorder (n : Node) : List Node := n :: n.children.preorder

/-! ## with an explicit stack -/

/-- Together the child nodes of a node are smaller than the node. -/
theorem nodeCount_pop (n : Node) (stack : List Node) :
    totalCount (n.childNodes ++ stack) < totalCount (n :: stack) := by
  simp only [childNodes, totalCount_append, Forest.totalCount_nodes, totalCount, nodeCount]
  omega

/-- Visit the nodes on the stack and all nodes below them, the top first. -/
def visitStack (visited : List Node) : List Node → List Node
  | [] => visited.reverse
  | n :: stack => visitStack (n :: visited) (n.childNodes ++ stack)
termination_by stack => totalCount stack
decreasing_by exact nodeCount_pop n stack

/-- The node and every node below it, as the stack gives them. -/
def descendants (n : Node) : List Node := visitStack [] [n]

/-- The largest level of the nodes on the stack and of all nodes below them; a
child is one level deeper than its parent.  The last child is visited first. -/
def deepest (most : Nat) : List (Node × Nat) → Nat
  | [] => most
  | (n, level) :: stack =>
    deepest (max most level) ((n.childNodes.map fun child => (child, level + 1)).reverse ++ stack)
termination_by stack => totalCount (stack.map (·.1))
decreasing_by
  have h := nodeCount_pop n (stack.map (·.1))
  simp only [List.map_append, List.map_reverse, List.map_map, Function.comp_def, List.map_id',
    List.map_cons, totalCount_append, totalCount_reverse] at h ⊢
  exact h

/-- How many nodes stand in one another at most, as the stack finds it. -/
def depthByStack (n : Node) : Nat := deepest 0 [(n, 1)]

end Node

end QueryAudit
