import QueryAudit.Text.Unquote

/-!
# QueryAudit.Tree.Basic

The syntax tree that an analysis reads.  A node carries the name of its grammar
rule as its *kind*, the *field* label that its parent gave it, and the position
of its first token; a leaf is a terminal token.

The children of a node form a `Forest`: a sequence of leaves and nodes in which
every node holds the forest below it.  All recursion over trees is structural
recursion on forests.

* `elements_ofElements`, `ofElements_elements` — a forest is the same thing as
  the list of its top elements;
* `nodes_eq_filterMap`, `leaves_eq_filterMap` — its nodes and leaves are those
  among its elements.
-/

namespace QueryAudit

/-- A place in a source text. -/
structure Position where
  line : UInt32
  column : UInt32
deriving DecidableEq, Repr

instance : Inhabited Position := ⟨⟨1, 0⟩⟩

/-- What a node says about itself, its children apart. -/
structure Label where
  kind : String
  field : Option String
  position : Position
deriving DecidableEq, Repr

/-- A terminal token. -/
structure Leaf where
  text : String
  field : Option String
  position : Position
deriving DecidableEq, Repr

/-- A sequence of leaves and nodes, each node with the forest of its children. -/
inductive Forest where
  | nil
  | leaf (leaf : Leaf) (rest : Forest)
  | node (label : Label) (children rest : Forest)
deriving DecidableEq, Repr

/-- A node: its label and the forest of its children. -/
structure Node extends Label where
  children : Forest
deriving DecidableEq, Repr

/-- One child of a node. -/
inductive Element where
  | node (node : Node)
  | leaf (leaf : Leaf)
deriving DecidableEq, Repr

/-- The deepest nesting of nodes that the readers and the analysis accept. -/
def maxDepth : Nat := 512

/-! ## forests and lists of elements -/

namespace Forest

/-- The top elements, from left to right. -/
def elements : Forest → List Element
  | nil => []
  | leaf l rest => .leaf l :: rest.elements
  | node label children rest => .node ⟨label, children⟩ :: rest.elements

/-- Put one element in front. -/
def cons : Element → Forest → Forest
  | .leaf l, rest => leaf l rest
  | .node n, rest => node n.toLabel n.children rest

/-- The forest with the given top elements. -/
def ofElements : List Element → Forest
  | [] => nil
  | e :: es => cons e (ofElements es)

/-- The forest that has the elements of a list, last first, in front of `rest`. -/
def prependReversed (rest : Forest) : List Element → Forest
  | [] => rest
  | e :: es => prependReversed (cons e rest) es

@[simp] theorem elements_cons (e : Element) (rest : Forest) :
    (cons e rest).elements = e :: rest.elements := by
  cases e <;> rfl

@[simp] theorem elements_ofElements (es : List Element) : (ofElements es).elements = es := by
  induction es with
  | nil => rfl
  | cons e es ih => simp [ofElements, ih]

@[simp] theorem ofElements_elements (f : Forest) : ofElements f.elements = f := by
  induction f with
  | nil => rfl
  | leaf l rest ih => simp [elements, ofElements, cons, ih]
  | node label children rest _ ih => simp [elements, ofElements, cons, ih]

@[simp] theorem elements_prependReversed (es : List Element) (rest : Forest) :
    (prependReversed rest es).elements = es.reverse ++ rest.elements := by
  induction es generalizing rest with
  | nil => rfl
  | cons e es ih => simp [prependReversed, ih]

/-- The top nodes, from left to right; leaves are passed over. -/
def nodes : Forest → List Node
  | nil => []
  | leaf _ rest => rest.nodes
  | node label children rest => ⟨label, children⟩ :: rest.nodes

/-- The top leaves, from left to right. -/
def leaves : Forest → List Leaf
  | nil => []
  | leaf l rest => l :: rest.leaves
  | node _ _ rest => rest.leaves

/-- The number of nodes, at any depth. -/
def nodeCount : Forest → Nat
  | nil => 0
  | leaf _ rest => rest.nodeCount
  | node _ children rest => children.nodeCount + 1 + rest.nodeCount

/-- How many nodes stand in one another at most. -/
def depth : Forest → Nat
  | nil => 0
  | leaf _ rest => rest.depth
  | node _ children rest => max (children.depth + 1) rest.depth

/-- Add the text of every leaf, at any depth and in document order, to `out`. -/
def appendText (out : String) : Forest → String
  | nil => out
  | leaf l rest => rest.appendText (out ++ l.text)
  | node _ children rest => rest.appendText (children.appendText out)

end Forest

/-! ## elements and nodes -/

namespace Element

/-- The field that an element fills in its parent. -/
def field : Element → Option String
  | node n => n.field
  | leaf l => l.field

/-- Where an element stands. -/
def position : Element → Position
  | node n => n.position
  | leaf l => l.position

/-- The line on which an element stands. -/
def line (e : Element) : UInt32 := e.position.line

/-- The element as a node. -/
def node? : Element → Option Node
  | node n => some n
  | leaf _ => none

/-- The element as a leaf. -/
def leaf? : Element → Option Leaf
  | node _ => none
  | leaf l => some l

/-- The text of a leaf, or of all leaves below a node. -/
def text : Element → String
  | node n => n.children.appendText ""
  | leaf l => l.text

/-- The text of an element without the quotes around it. -/
def unquotedText (e : Element) : String := unquote e.text

end Element

namespace Node

/-- The line on which a node stands. -/
def line (n : Node) : UInt32 := n.position.line

/-- The text of every leaf below the node, joined in document order. -/
def text (n : Node) : String := n.children.appendText ""

/-- The text of a node without the quotes around it. -/
def unquotedText (n : Node) : String := unquote n.text

/-- A node as a forest of one. -/
def toForest (n : Node) : Forest := .node n.toLabel n.children .nil

/-- The number of nodes in the tree, the node itself included. -/
def nodeCount (n : Node) : Nat := n.children.nodeCount + 1

/-- How many nodes stand in one another at most, the node itself included. -/
def depth (n : Node) : Nat := n.children.depth + 1

end Node

/-- The number of nodes in the trees of a list. -/
def Node.totalCount : List Node → Nat
  | [] => 0
  | n :: ns => n.nodeCount + totalCount ns

@[simp] theorem Node.totalCount_append (ms ns : List Node) :
    totalCount (ms ++ ns) = totalCount ms + totalCount ns := by
  induction ms with
  | nil => simp [totalCount]
  | cons m ms ih => simp [totalCount, ih, Nat.add_assoc]

@[simp] theorem Node.totalCount_reverse (ns : List Node) :
    totalCount ns.reverse = totalCount ns := by
  induction ns with
  | nil => rfl
  | cons n ns ih => simp [totalCount, ih, Nat.add_comm]

/-- The nodes below a node are those below its child nodes, and these. -/
theorem Forest.totalCount_nodes (f : Forest) : Node.totalCount f.nodes = f.nodeCount := by
  induction f with
  | nil => rfl
  | leaf l rest ih => simpa [nodes, nodeCount] using ih
  | node label children rest _ ih =>
    simp [nodes, nodeCount, Node.totalCount, Node.nodeCount, ih]

/-- The nodes of a forest are the nodes among its elements. -/
theorem Forest.nodes_eq_filterMap (f : Forest) : f.nodes = f.elements.filterMap Element.node? := by
  induction f with
  | nil => rfl
  | leaf l rest ih => simp [nodes, elements, List.filterMap_cons, Element.node?, ih]
  | node label children rest _ ih => simp [nodes, elements, Element.node?, ih]

/-- The leaves of a forest are the leaves among its elements. -/
theorem Forest.leaves_eq_filterMap (f : Forest) :
    f.leaves = f.elements.filterMap Element.leaf? := by
  induction f with
  | nil => rfl
  | leaf l rest ih => simp [leaves, elements, Element.leaf?, ih]
  | node label children rest _ ih => simp [leaves, elements, List.filterMap_cons, Element.leaf?, ih]

end QueryAudit
