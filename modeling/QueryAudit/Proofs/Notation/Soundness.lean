import QueryAudit.Notation.Reader
import QueryAudit.Proofs.Notation.Place

/-!
# QueryAudit.Proofs.Notation.Soundness

Which trees can be written down.  A tree is well formed when its kinds and field
labels can stand as atoms and it does not nest too deeply; the texts of its leaves
are free.

* `Stacked` — what holds of the nodes that are open while a tree is read;
* `wellFormed_of_read` — every tree that is read is well formed.
-/

namespace QueryAudit

open Notation

/-! ## well-formed trees -/

/-- Whether a kind can be written in front of a position. -/
def Notation.isKind (s : String) : Bool := s.toList.all fun c => c != '@' && !isDelimiter c

/-- Whether a label can be written. -/
def Label.wellFormed (l : Label) : Bool := isKind l.kind && l.field.all isName

/-- Whether the labels and fields of a forest can be written. -/
def Forest.wellFormed : Forest → Bool
  | .nil => true
  | .leaf l rest => l.field.all isName && rest.wellFormed
  | .node label children rest =>
    label.wellFormed && (children.wellFormed && rest.wellFormed)

/-- Whether a tree can be written: all its labels can, and it does not nest too deeply. -/
def Node.wellFormed (n : Node) : Bool :=
  n.depth ≤ maxDepth && (n.toLabel.wellFormed && n.children.wellFormed)

/-- Whether the labels of an element can be written. -/
def Element.wellFormed : Element → Bool
  | .node n => n.toLabel.wellFormed && n.children.wellFormed
  | .leaf l => l.field.all isName

/-- How many nodes stand in one another at most. -/
def Element.depth : Element → Nat
  | .node n => n.depth
  | .leaf _ => 0

theorem Forest.wellFormed_eq_all (f : Forest) :
    f.wellFormed = f.elements.all Element.wellFormed := by
  induction f with
  | nil => rfl
  | leaf l rest ih => rw [wellFormed, elements, List.all_cons, ih, Element.wellFormed]
  | node label children rest _ ih =>
      rw [wellFormed, elements, List.all_cons, ih, Element.wellFormed, Bool.and_assoc]

theorem Forest.depth_le_iff (f : Forest) (d : Nat) :
    f.depth ≤ d ↔ ∀ e ∈ f.elements, e.depth ≤ d := by
  induction f with
  | nil => simp [depth, elements]
  | leaf l rest ih => simp [depth, elements, ih, Element.depth]
  | node label children rest _ ih =>
      rw [depth, elements, List.forall_mem_cons, ← ih, Nat.max_le]
      rfl

namespace Notation

/-! ## kinds and fields that are read -/

theorem isKind_of_readHeader {position position' : Position} {header kind : String}
    (hname : isName header = true) (h : readHeader position header = .ok (kind, position')) :
    isKind kind = true := by
  rw [isName, Bool.and_eq_true, List.all_eq_true] at hname
  unfold readHeader at h
  split at h
  · next hcut =>
    cases h
    rw [isKind, List.all_eq_true]
    intro c hc
    have hat : c ≠ '@' := by
      rintro rfl
      exact cut_eq_none_iff.1 hcut hc
    simp only [hname.2 c hc, Bool.and_true, bne_iff_ne, ne_eq, hat, not_false_eq_true]
  · next before spec hcut =>
    split at h
    · contradiction
    · cases h
      rw [isKind, String.toList_ofList, List.all_eq_true]
      intro c hc
      have hmem : c ∈ header.toList := by
        rw [eq_append_of_cut hcut]
        exact List.mem_append_left _ hc
      have hat : c ≠ '@' := by
        rintro rfl
        exact not_mem_of_cut hcut hc
      simp only [hname.2 c hmem, Bool.and_true, bne_iff_ne, ne_eq, hat, not_false_eq_true]

/-! ## nodes that are open -/

/-- What holds of the nodes that are open, innermost first: their labels and what
they have below them can be written, and nothing nests too deeply. -/
def Stacked : List OpenNode → Prop
  | [] => True
  | o :: outer =>
    o.label.wellFormed = true ∧ outer.length < maxDepth ∧
      (∀ e ∈ o.children, e.wellFormed = true ∧ outer.length + 1 + e.depth ≤ maxDepth) ∧
      Stacked outer

namespace Stacked

variable {o : OpenNode} {outer : List OpenNode}

/-- A node that is closed can be written where it stands. -/
theorem close (h : Stacked (o :: outer)) :
    (Element.node o.close).wellFormed = true ∧ outer.length + o.close.depth ≤ maxDepth := by
  obtain ⟨hlabel, hlength, hchildren, -⟩ := h
  have helements : (Forest.prependReversed .nil o.children).elements = o.children.reverse := by
    rw [Forest.elements_prependReversed]
    exact List.append_nil _
  constructor
  · rw [Element.wellFormed, OpenNode.close, hlabel, Bool.true_and, Forest.wellFormed_eq_all,
      helements, List.all_eq_true]
    exact fun e he => (hchildren e (List.mem_reverse.1 he)).1
  · have hdepth : (Forest.prependReversed .nil o.children).depth ≤ maxDepth - (outer.length + 1) := by
      rw [Forest.depth_le_iff, helements]
      intro e he
      have hle := (hchildren e (List.mem_reverse.1 he)).2
      omega
    rw [Node.depth, OpenNode.close]
    dsimp only
    omega

/-- An element that can be written becomes a child. -/
theorem push (h : Stacked (o :: outer)) {e : Element} (he : e.wellFormed = true)
    (hdepth : outer.length + 1 + e.depth ≤ maxDepth) : Stacked (o.push e :: outer) := by
  obtain ⟨hlabel, hlength, hchildren, houter⟩ := h
  refine ⟨hlabel, hlength, ?_, houter⟩
  intro child hchild
  rcases List.mem_cons.1 hchild with rfl | hchild
  · exact ⟨he, hdepth⟩
  · exact hchildren child hchild

end Stacked

theorem Stacked.length_le {opened : List OpenNode} (h : Stacked opened) :
    opened.length ≤ maxDepth := by
  cases opened with
  | nil => exact Nat.zero_le _
  | cons o outer => exact h.2.1

/-- **Reading on** gives a well-formed tree when what is open so far can be written. -/
theorem wellFormed_of_readFrom {opened : List OpenNode} {field : Option String}
    {position : Position} {lexemes : List (Lexeme × Nat)} {t : Node}
    (h : readFrom opened field position lexemes = .ok t) (hopened : Stacked opened)
    (hfield : field.all isName = true) (hlexemes : ∀ l ∈ lexemes, l.1.isProper = true) :
    t.wellFormed = true := by
  fun_induction readFrom opened field position lexemes with
  | case2 opened position name offset place rest ih =>
      obtain ⟨hname, hrest⟩ := List.forall_mem_cons.1 hlexemes
      exact ih h hopened hname (List.forall_mem_cons.1 hrest).2
  | case6 field position s given offset rest parent outer position' ih =>
      refine ih h (hopened.push hfield ?_) rfl (List.forall_mem_cons.1 hlexemes).2
      exact hopened.2.1
  | case10 opened field position offset hlength header place rest kind position' hheader ih =>
      obtain ⟨hname, hrest⟩ := List.forall_mem_cons.1 (List.forall_mem_cons.1 hlexemes).2
      refine ih h ⟨?_, ?_, by simp, hopened⟩ rfl hrest
      · rw [Label.wellFormed, isKind_of_readHeader hname hheader, hfield]
        rfl
      · exact Nat.lt_of_le_of_ne hopened.length_le hlength
  | case12 position offset rest node parent outer ih =>
      obtain ⟨hclose, hdepth⟩ := hopened.close
      refine ih h (Stacked.push hopened.2.2.2 hclose ?_) rfl (List.forall_mem_cons.1 hlexemes).2
      exact hdepth
  | case13 position offset root =>
      cases h
      obtain ⟨hclose, hdepth⟩ := hopened.close
      rw [List.length_nil, Nat.zero_add] at hdepth
      rw [Node.wellFormed, Bool.and_eq_true, decide_eq_true_eq]
      exact ⟨hdepth, hclose⟩
  | _ => contradiction

/-- **Every tree that is read** is well formed. -/
theorem wellFormed_of_read {s : String} {t : Node} (h : read s = .ok t) : t.wellFormed = true := by
  rw [read] at h
  cases hlex : lex s with
  | error e => simp [hlex] at h
  | ok lexemes =>
      rw [hlex] at h
      exact wellFormed_of_readFrom h trivial rfl (isProper_of_mem_lex hlex)

end Notation

end QueryAudit
