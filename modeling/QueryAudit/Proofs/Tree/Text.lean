import QueryAudit.Tree.Grammar

/-!
# QueryAudit.Proofs.Tree.Text

The text of a node is the text of its leaves in document order, so that what is read off a
node, and the text of every node below it, is a part of its text.

* `Node.text_isInfix_of_mem_preorder` — the nodes below a node;
* `Node.isInfix_of_nameText?`, `Node.isInfix_of_functionName?` — the names that it gives.
-/

namespace QueryAudit

namespace Forest

theorem toList_appendText (f : Forest) (out : String) :
    (f.appendText out).toList = out.toList ++ (f.appendText "").toList := by
  induction f generalizing out with
  | nil => simp [appendText]
  | leaf l rest ih => simp [appendText, ih (out ++ l.text), ih l.text]
  | node label children rest ihc ih =>
      rw [appendText, appendText, ih, ihc, ih (children.appendText "")]
      simp

/-- The text of a top element is a part of the text of the forest. -/
theorem text_isInfix_of_mem_elements {f : Forest} {e : Element} (h : e ∈ f.elements) :
    e.text.toList <:+: (f.appendText "").toList := by
  induction f with
  | nil => simp [elements] at h
  | leaf l rest ih =>
      rw [appendText, toList_appendText]
      rcases List.mem_cons.1 h with rfl | h
      · exact List.infix_append' [] _ _
      · exact (ih h).trans (List.suffix_append _ _).isInfix
  | node label children rest _ ih =>
      rw [appendText, toList_appendText]
      rcases List.mem_cons.1 h with rfl | h
      · exact (List.prefix_append _ _).isInfix
      · exact (ih h).trans (List.suffix_append _ _).isInfix

/-- The text of a node at any depth is a part of the text of the forest. -/
theorem text_isInfix_of_mem_preorder {f : Forest} {n : Node} (h : n ∈ f.preorder) :
    n.text.toList <:+: (f.appendText "").toList := by
  induction f with
  | nil => simp [preorder] at h
  | leaf l rest ih =>
      rw [appendText, toList_appendText]
      exact (ih h).trans (List.suffix_append _ _).isInfix
  | node label children rest ihc ih =>
      rw [appendText, toList_appendText]
      rcases List.mem_cons.1 h with rfl | h
      · exact (List.prefix_append _ _).isInfix
      · rcases List.mem_append.1 h with h | h
        · exact (ihc h).trans (List.prefix_append _ _).isInfix
        · exact (ih h).trans (List.suffix_append _ _).isInfix

end Forest

namespace Node

variable {n d : Node} {s : String}

/-- **The text** of a node below another is a part of that one's text. -/
theorem text_isInfix_of_mem_preorder (h : d ∈ n.preorder) : d.text.toList <:+: n.text.toList := by
  rcases List.mem_cons.1 h with rfl | h
  · exact List.infix_refl _
  · exact Forest.text_isInfix_of_mem_preorder h

theorem text_isInfix_of_mem_childNodes (h : d ∈ n.childNodes) :
    d.text.toList <:+: n.text.toList := by
  rw [childNodes, Forest.nodes_eq_filterMap] at h
  obtain ⟨e, he, hd⟩ := List.mem_filterMap.1 h
  cases e with
  | node child =>
      cases hd
      exact Forest.text_isInfix_of_mem_elements he
  | leaf l => contradiction

/-- The name of a node is a part of its text. -/
theorem isInfix_of_nameText? (h : n.nameText? = some s) : s.toList <:+: n.text.toList := by
  obtain ⟨e, he, rfl⟩ := Option.map_eq_some_iff.1 h
  exact Forest.text_isInfix_of_mem_elements (List.mem_of_find?_eq_some he)

/-- The name of a function is a part of the text of its node. -/
theorem isInfix_of_functionName? (h : n.functionName? = some s) : s.toList <:+: n.text.toList := by
  have hname := (Option.filter_eq_some_iff.1 h).1
  split at hname
  case h_1 child hchild =>
    cases hname
    exact text_isInfix_of_mem_childNodes (List.mem_of_find?_eq_some hchild)
  case h_2 => exact isInfix_of_nameText? hname

/-- The text of a parameter is a part of the text of its function. -/
theorem text_isInfix_of_mem_params (h : d ∈ n.params) : d.text.toList <:+: n.text.toList := by
  unfold params at h
  split at h
  case h_1 list hlist =>
    have hd := text_isInfix_of_mem_childNodes (List.mem_filter.1 h).1
    exact hd.trans (text_isInfix_of_mem_childNodes (List.mem_of_find?_eq_some hlist))
  case h_2 => exact text_isInfix_of_mem_childNodes (List.mem_filter.1 h).1

end Node

end QueryAudit
