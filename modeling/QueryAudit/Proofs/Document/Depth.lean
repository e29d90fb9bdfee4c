import QueryAudit.Document.Writer
import QueryAudit.Proofs.Json.Nesting

/-!
# QueryAudit.Proofs.Document.Depth

How deeply a document nests and how deep its tree is.  The brackets of a document count
levels: `Forest.height` is the number of levels on which elements stand, the tokens among
them, where `Forest.depth` is the number of levels with nodes.  The two differ by one when a
deepest node has tokens.

* `depth_le_height`, `height_le_depth_add_one` — levels of nodes and of elements;
* `height_of_unit?` — a document has two brackets for each level of its tree;
* `nesting_ofUnit_le` — a written document has no more of them.
-/

namespace QueryAudit

/-! ## levels -/

namespace Forest

/-- The number of levels on which elements stand. -/
def height : Forest → Nat
  | nil => 0
  | leaf _ rest => max 1 rest.height
  | node _ children rest => max (children.height + 1) rest.height

theorem depth_le_height (f : Forest) : f.depth ≤ f.height := by
  induction f with
  | nil => exact Nat.le_refl 0
  | leaf l rest ih =>
      rw [depth, height]
      omega
  | node label children rest ihc ihr =>
      rw [depth, height]
      omega

theorem height_le_depth_add_one (f : Forest) : f.height ≤ f.depth + 1 := by
  induction f with
  | nil => exact Nat.zero_le 1
  | leaf l rest ih =>
      rw [depth, height]
      omega
  | node label children rest ihc ihr =>
      rw [depth, height]
      omega

end Forest

/-- The number of levels of a tree, that of its root included. -/
def Node.height (n : Node) : Nat := n.children.height + 1

theorem Node.depth_le_height (n : Node) : n.depth ≤ n.height :=
  Nat.succ_le_succ n.children.depth_le_height

theorem Node.height_le_depth_add_one (n : Node) : n.height ≤ n.depth + 1 :=
  Nat.succ_le_succ n.children.height_le_depth_add_one

/-- The number of levels of an element, its own included. -/
def Element.height : Element → Nat
  | .node n => n.height
  | .leaf _ => 1

theorem Forest.height_cons (e : Element) (rest : Forest) :
    (Forest.cons e rest).height = max e.height rest.height := by
  cases e <;> rfl

namespace Document

open Json

/-! ## parts of records -/

/-- The values of a record. -/
def Parts.values {α : Type} : Parts α → List α
  | named members => members.map (·.2)
  | placed items => items

/-- A field is one of the values. -/
theorem mem_values_of_fields? {α : Type} {parts : Parts α} {names : List String}
    {fields : String → Option α} (h : parts.fields? names = some fields) {name : String} {value : α}
    (hfield : fields name = some value) : value ∈ parts.values := by
  cases parts with
  | named members =>
      rw [Parts.fields?] at h
      split at h
      · cases h
        obtain ⟨m, hm, rfl⟩ := Option.map_eq_some_iff.1 hfield
        exact List.mem_map.2 ⟨m, List.mem_of_find?_eq_some hm, rfl⟩
      · contradiction
  | placed items =>
      rw [Parts.fields?] at h
      split at h
      · cases h
        exact List.mem_of_getElem? hfield
      · contradiction

/-- Children come from one of the parts, or there are none. -/
theorem children_of_nodeOf? {parts : Parts View} {n : Node} (h : nodeOf? parts = some n) :
    n.children = .nil ∨ ∃ view ∈ parts.values, view.forest = some n.children := by
  simp only [nodeOf?, Option.bind_eq_bind, Option.bind_eq_some_iff, Option.pure_def,
    Option.some.injEq] at h
  obtain ⟨fields, hfields, kind, -, field, -, line, -, column, -, children, hchildren, rfl⟩ := h
  cases hvalue : fields "children" with
  | none =>
      rw [hvalue] at hchildren
      cases hchildren
      exact .inl rfl
  | some view =>
      rw [hvalue] at hchildren
      exact .inr ⟨view, mem_values_of_fields? hfields hvalue, hchildren⟩

/-- Values of a record whose forests are at most so high. -/
def HeightsAtMost (bound : Nat) (parts : Parts View) : Prop :=
  ∀ view ∈ parts.values, ∀ f, view.forest = some f → 2 * f.height ≤ bound

theorem height_of_nodeOf? {bound : Nat} {parts : Parts View} (hparts : HeightsAtMost bound parts)
    {n : Node} (h : nodeOf? parts = some n) : 2 * n.height ≤ bound + 2 := by
  rw [Node.height]
  rcases children_of_nodeOf? h with hnone | ⟨view, hview, hforest⟩
  · rw [hnone, Forest.height]
    omega
  · have := hparts view hview _ hforest
    omega

theorem height_of_elementOf? {bound : Nat} {type : ElementType} {parts : Parts View}
    (hparts : HeightsAtMost bound parts) {e : Element} (h : elementOf? type parts = some e) :
    2 * e.height ≤ bound + 2 := by
  cases type with
  | node =>
      obtain ⟨n, hn, rfl⟩ := Option.map_eq_some_iff.1 h
      exact height_of_nodeOf? hparts hn
  | token =>
      obtain ⟨l, -, rfl⟩ := Option.map_eq_some_iff.1 h
      rw [Element.height]
      omega

theorem height_of_elementOfMembers? {bound : Nat} {inside : Bool}
    {members : List (Option String × View)} (hmembers : HeightsAtMost bound (.named members))
    {e : Element} (h : elementOfMembers? inside members = some e) : 2 * e.height ≤ bound + 2 := by
  rw [elementOfMembers?] at h
  split at h
  · obtain ⟨type, -, helement⟩ := Option.bind_eq_some_iff.1 h
    refine height_of_elementOf? (fun view hview => hmembers view ?_) helement
    obtain ⟨m, hm, rfl⟩ := List.mem_map.1 hview
    exact List.mem_map.2 ⟨m, (List.mem_filter.1 hm).1, rfl⟩
  · contradiction

/-! ## reading -/

mutual

theorem height_of_element? {inside : Bool} (v : Json) {e : Element}
    (h : element? inside v = some e) : 2 * e.height ≤ v.nesting + 1 := by
  match v with
  | .object members =>
      rw [element?] at h
      rw [nesting]
      exact height_of_elementOfMembers? (heights_viewMembers members) h
  | .array (type :: items) =>
      rw [element?] at h
      obtain ⟨type, -, helement⟩ := Option.bind_eq_some_iff.1 h
      have hheight := height_of_elementOf? (heights_viewItems items) helement
      rw [nesting, nestingOfItems]
      omega

theorem height_of_elements? {inside : Bool} (items : List Json) {f : Forest}
    (h : elements? inside items = some f) : 2 * f.height ≤ nestingOfItems items + 1 := by
  match items with
  | [] =>
      cases h
      exact Nat.zero_le _
  | v :: rest =>
      rw [elements?] at h
      split at h
      · contradiction
      · rename_i helement
        obtain ⟨f, hrest, rfl⟩ := Option.map_eq_some_iff.1 h
        have hfirst := height_of_element? v helement
        have hothers := height_of_elements? rest hrest
        rw [Forest.height_cons, nestingOfItems]
        omega

theorem height_of_forest? (v : Json) {f : Forest} (h : forest? v = some f) :
    2 * f.height ≤ v.nesting := by
  match v with
  | .array items =>
      rw [forest?] at h
      rw [nesting]
      exact height_of_elements? items h

theorem heights_viewItems (items : List Json) :
    HeightsAtMost (nestingOfItems items) (.placed (viewItems items)) := by
  match items with
  | [] =>
      rintro view ⟨⟩
  | v :: rest =>
      intro view hview f hf
      rw [nestingOfItems]
      rcases List.mem_cons.1 hview with rfl | hview
      · have := height_of_forest? v hf
        omega
      · have := heights_viewItems rest view hview f hf
        omega

theorem heights_viewMembers (members : List (Option String × Json)) :
    HeightsAtMost (nestingOfMembers members) (.named (viewMembers members)) := by
  match members with
  | [] =>
      rintro view ⟨⟩
  | (name, v) :: rest =>
      intro view hview f hf
      rw [nestingOfMembers]
      rcases List.mem_cons.1 hview with rfl | hview
      · have := height_of_forest? v hf
        omega
      · have := heights_viewMembers rest view hview f hf
        omega

end

theorem nesting_le_nestingOfItems {v : Json} {items : List Json} (h : v ∈ items) :
    v.nesting ≤ nestingOfItems items := by
  induction h with
  | head rest =>
      rw [nestingOfItems]
      omega
  | tail w _ ih =>
      rw [nestingOfItems]
      omega

theorem nesting_le_nestingOfMembers {m : Option String × Json}
    {members : List (Option String × Json)} (h : m ∈ members) :
    m.2.nesting ≤ nestingOfMembers members := by
  induction h with
  | head rest =>
      rw [nestingOfMembers]
      omega
  | tail w _ ih =>
      rw [nestingOfMembers]
      omega

/-- A value of a record nests less deeply than the record. -/
theorem nesting_lt_of_plainParts? {v w : Json} {parts : Parts Json}
    (h : plainParts? v = some parts) (hw : w ∈ parts.values) : w.nesting < v.nesting := by
  cases v with
  | object members =>
      cases h
      obtain ⟨m, hm, rfl⟩ := List.mem_map.1 hw
      exact Nat.lt_succ_of_le (nesting_le_nestingOfMembers hm)
  | array items =>
      cases h
      exact Nat.lt_succ_of_le (nesting_le_nestingOfItems hw)
  | _ => contradiction

/-- Outermost elements come from the values of a record. -/
theorem exists_of_partsOf? {v : Json} {parts : Parts View} (h : partsOf? v = some parts) :
    ∃ plain, plainParts? v = some plain ∧
      parts.values = plain.values.map partsOf?.view := by
  cases v with
  | object members =>
      cases h
      exact ⟨.named members, rfl, by simp [Parts.values]⟩
  | array items =>
      cases h
      exact ⟨.placed items, rfl, rfl⟩
  | _ => contradiction

theorem height_of_view {v : Json} {f : Forest} (h : (partsOf?.view v).forest = some f) :
    2 * f.height ≤ v.nesting := by
  cases v with
  | array items =>
      dsimp only [partsOf?.view] at h
      split at h
      · exact height_of_elements? items h
      · contradiction
  | _ => contradiction

theorem height_of_node? {v : Json} {n : Node} (h : node? v = some n) :
    2 * n.height ≤ v.nesting + 1 := by
  obtain ⟨parts, hparts, hnode⟩ := Option.bind_eq_some_iff.1 h
  obtain ⟨plain, hplain, hvalues⟩ := exists_of_partsOf? hparts
  have hpos : 0 < v.nesting := by
    cases v <;> first | contradiction | exact Nat.succ_pos _
  have hheights : HeightsAtMost (v.nesting - 1) parts := by
    intro view hview f hf
    rw [hvalues] at hview
    obtain ⟨w, hw, rfl⟩ := List.mem_map.1 hview
    have hforest := height_of_view hf
    have hless := nesting_lt_of_plainParts? hplain hw
    omega
  have hheight := height_of_nodeOf? hheights hnode
  omega

/-- **The tree of a document** has at most half as many levels as there are brackets of the
document in one another. -/
theorem height_of_unit? {v : Json} {u : SourceUnit} (h : unit? v = some u) :
    2 * u.tree.height ≤ v.nesting := by
  simp only [unit?, Option.bind_eq_bind, Option.bind_eq_some_iff, Option.pure_def,
    Option.some.injEq] at h
  obtain ⟨parts, hparts, fields, hfields, name, -, tree, ⟨value, hvalue, htree⟩, problems, -, rfl⟩
    := h
  have hless := nesting_lt_of_plainParts? hparts (mem_values_of_fields? hfields hvalue)
  have hheight := height_of_node? htree
  dsimp only
  omega

/-! ## writing -/

/-- Members without brackets do not count. -/
theorem nesting_record_append {ms : List (String × Json)} (h : ∀ m ∈ ms, m.2.nesting = 0)
    (ns : List (String × Json)) : nesting (.record (ms ++ ns)) = nesting (.record ns) := by
  induction ms with
  | nil => rfl
  | cons m ms ih =>
      have hm : m.2.nesting = 0 := h m List.mem_cons_self
      have hms := ih fun m hm => h m (List.mem_cons_of_mem _ hm)
      simp only [record, nesting, List.cons_append, List.map_cons, nestingOfMembers] at hms ⊢
      omega

theorem nesting_record_of_flat {ms : List (String × Json)} (h : ∀ m ∈ ms, m.2.nesting = 0) :
    nesting (.record ms) = 1 := by
  rw [← List.append_nil ms, nesting_record_append h]
  rfl

theorem nesting_childrenMember (items : List Json) :
    nesting (.record (childrenMember items))
      = if items = [] then 1 else nestingOfItems items + 2 := by
  cases items <;> rfl

theorem nesting_of_mem_labelMembers (l : Label) : ∀ m ∈ labelMembers l, m.2.nesting = 0 := by
  cases hfield : l.field <;>
    simp [labelMembers, fieldMember, positionMembers, hfield, text, ofWord, nesting]

theorem nesting_of_mem_leafMembers (l : Leaf) : ∀ m ∈ leafMembers l, m.2.nesting = 0 := by
  cases hfield : l.field <;>
    simp [leafMembers, fieldMember, positionMembers, hfield, text, ofWord, nesting]

theorem nestingOfItems_ofForest (f : Forest) : nestingOfItems (ofForest f) = 2 * f.height - 1 := by
  induction f with
  | nil => rfl
  | leaf l rest ih =>
      have hflat : ∀ m ∈ ("type", text "token") :: leafMembers l, m.2.nesting = 0 :=
        List.forall_mem_cons.2 ⟨rfl, nesting_of_mem_leafMembers l⟩
      rw [ofForest, nestingOfItems, nesting_record_of_flat hflat, ih, Forest.height]
      omega
  | node label children rest ihc ihr =>
      have hflat : ∀ m ∈ ("type", text "node") :: labelMembers label, m.2.nesting = 0 :=
        List.forall_mem_cons.2 ⟨rfl, nesting_of_mem_labelMembers label⟩
      rw [ofForest, nestingOfItems, nesting_record_append hflat, nesting_childrenMember, ihc, ihr,
        Forest.height]
      cases children <;> simp [ofForest, Forest.height] <;> omega

theorem nesting_ofNode (n : Node) : (ofNode n).nesting = 2 * n.height - 1 := by
  rw [ofNode, nodeMembers, nesting_record_append (nesting_of_mem_labelMembers _),
    nesting_childrenMember, nestingOfItems_ofForest, Node.height]
  cases n.children <;> simp [ofForest, Forest.height] <;> omega

theorem nesting_ofProblem (p : Problem) : (ofProblem p).nesting = 1 :=
  nesting_record_of_flat (by simp [positionMembers, text, ofWord, nesting])

theorem nestingOfItems_ofProblem_le (problems : List Problem) :
    nestingOfItems (problems.map ofProblem) ≤ 1 := by
  induction problems with
  | nil => exact Nat.zero_le 1
  | cons p problems ih =>
      rw [List.map_cons, nestingOfItems, nesting_ofProblem]
      omega

/-- **A written document** has two brackets in one another for each level of its tree, or
three for its problems. -/
theorem nesting_ofUnit_le (u : SourceUnit) : (ofUnit u).nesting ≤ max 3 (2 * u.tree.height) := by
  have hproblems := nestingOfItems_ofProblem_le u.problems
  simp only [ofUnit, record, List.map_cons, List.map_nil, nesting, nestingOfMembers, text,
    nesting_ofNode]
  omega

end Document

end QueryAudit
