import QueryAudit.Document.Reader
import QueryAudit.Document.Writer
import QueryAudit.Proofs.Json.Written

/-!
# QueryAudit.Proofs.Document.RoundTrip

Documents of units are read as those units.  What is left out in writing is what the reader
takes for a field that is missing.

* `nodeOf?_nodeMembers` — a node from its members, in whatever way its children are seen;
* `elements?_ofForest` — the elements of a forest;
* `Hereditary.ofUnit` — a property that passes from parts to values holds of documents;
* `unit?_ofUnit` — a unit.
-/

namespace QueryAudit.Document

open Json

/-! ## values -/

theorem text?_text (s : String) : text? (.text s) = some s := rfl

theorem label?_text (s : String) : label? (.text s) = some (some s) := rfl

theorem word?_ofWord (w : UInt32) : Document.word? (ofWord w) = some w := readWord_writeWord w

/-! ## elements -/

/-- Members with the names that they have and views of their values. -/
def viewed (view : Json → View) (members : List (String × Json)) : List (Option String × View) :=
  members.map fun (name, value) => (some name, view value)

theorem leafOf?_leafMembers (l : Leaf) (view : Json → View) (hvalue : ∀ v, (view v).value = v) :
    leafOf? (.named (viewed view (leafMembers l))) = some l := by
  obtain ⟨text, field, line, column⟩ := l
  cases field <;>
    simp [leafOf?, viewed, leafMembers, fieldMember, positionMembers, Parts.fields?, hvalue,
      text?_text, word?_ofWord, label?_text, readOr]

theorem ofForest_eq_nil {f : Forest} (h : ofForest f = []) : f = .nil := by
  cases f <;> first | rfl | contradiction

/-- **A node** is read from its members, whichever view shows its children. -/
theorem nodeOf?_nodeMembers (n : Node) (view : Json → View) (hvalue : ∀ v, (view v).value = v)
    (hforest : (view (.array (ofForest n.children))).forest = some n.children) :
    nodeOf? (.named (viewed view (nodeMembers n))) = some n := by
  obtain ⟨⟨kind, field, line, column⟩, children⟩ := n
  by_cases hnone : ofForest children = []
  · have hnil := ofForest_eq_nil hnone
    subst hnil
    cases field <;>
      simp [nodeOf?, viewed, nodeMembers, labelMembers, fieldMember, positionMembers,
        childrenMember, hnone, Parts.fields?, hvalue, text?_text, word?_ofWord, label?_text, readOr]
  · cases field <;>
      simp [nodeOf?, viewed, nodeMembers, labelMembers, fieldMember, positionMembers,
        childrenMember, hnone, Parts.fields?, hvalue, hforest, text?_text, word?_ofWord,
        label?_text, readOr]

/-- The view of the value of a member inside an element. -/
def innerView (value : Json) : View := ⟨value, forest? value⟩

theorem viewMembers_record (members : List (String × Json)) :
    viewMembers (members.map fun (name, value) => (some name, value))
      = viewed innerView members := by
  induction members with
  | nil => rfl
  | cons m members ih =>
      rw [List.map_cons, viewMembers, ih]
      rfl

theorem ne_type_of_mem_leafMembers (l : Leaf) : ∀ m ∈ leafMembers l, m.1 ≠ "type" := by
  cases hfield : l.field <;> simp [leafMembers, fieldMember, positionMembers, hfield]

theorem ne_type_of_mem_nodeMembers (n : Node) : ∀ m ∈ nodeMembers n, m.1 ≠ "type" := by
  cases hfield : n.field <;> cases hitems : ofForest n.children <;>
    simp [nodeMembers, labelMembers, fieldMember, positionMembers, childrenMember, hfield, hitems]

/-- **An element** is read from the members behind its type. -/
theorem element?_record {inside : Bool} {name : String} {type : ElementType}
    {members : List (String × Json)} (htype : elementType? inside (.text name) = some type)
    (hnames : ∀ m ∈ members, m.1 ≠ "type") :
    element? inside (.record (("type", .text name) :: members))
      = elementOf? type (.named (viewed innerView members)) := by
  have hother : ∀ m ∈ viewed innerView members, m.1 ≠ some "type" := by
    intro m hm
    obtain ⟨m, hmembers, rfl⟩ := List.mem_map.1 hm
    exact fun h => hnames m hmembers (Option.some.inj h)
  have hall : (viewed innerView members).filter (·.1 != some "type")
      = viewed innerView members :=
    List.filter_eq_self.2 fun m hm => bne_iff_ne.2 (hother m hm)
  have hnone : (viewed innerView members).filter (·.1 == some "type") = [] :=
    List.filter_eq_nil_iff.2 fun m hm => by simpa using hother m hm
  rw [record, element?, viewMembers_record, elementOfMembers?, viewed, List.map_cons, ← viewed]
  simp [hall, hnone, innerView, htype]

/-- **The elements** of a forest are read from its items. -/
theorem elements?_ofForest (inside : Bool) (f : Forest) :
    elements? inside (ofForest f) = some f := by
  induction f generalizing inside with
  | nil => rfl
  | leaf l rest ih =>
      have hleaf := leafOf?_leafMembers l innerView fun _ => rfl
      rw [ofForest, elements?, element?_record rfl (ne_type_of_mem_leafMembers l), elementOf?,
        hleaf, ih]
      rfl
  | node label children rest ihc ihr =>
      have hnode := nodeOf?_nodeMembers ⟨label, children⟩ innerView (fun _ => rfl) (ihc true)
      have hitem : Json.record (("type", .text "node") :: labelMembers label
          ++ childrenMember (ofForest children)) = ofElement ⟨label, children⟩ := rfl
      rw [ofForest, elements?, hitem, ofElement,
        element?_record rfl (ne_type_of_mem_nodeMembers ⟨label, children⟩), elementOf?, hnode, ihr]
      rfl

/-! ## properties of what is written -/

/-- A property of texts and words that values have when their parts have it. -/
structure Hereditary (P : Json → Prop) : Prop where
  text : ∀ s, P (.text s)
  word : ∀ w, P (ofWord w)
  array : ∀ items, (∀ v ∈ items, P v) → P (.array items)
  record : ∀ members, (∀ m ∈ members, P m.2) → P (.record members)

section

variable {P : Json → Prop} (h : Hereditary P)

include h

theorem Hereditary.fieldMember (field : Option String) : ∀ m ∈ fieldMember field, P m.2 := by
  cases field with
  | none => simp [Document.fieldMember]
  | some field => simpa [Document.fieldMember] using h.text field

theorem Hereditary.leafMembers (l : Leaf) : ∀ m ∈ leafMembers l, P m.2 := by
  have hfield := h.fieldMember l.field
  simp only [Document.leafMembers, positionMembers, List.cons_append, List.forall_mem_cons,
    List.forall_mem_append]
  exact ⟨h.text l.text, hfield, h.word _, h.word _, nofun⟩

theorem Hereditary.labelMembers (l : Label) : ∀ m ∈ labelMembers l, P m.2 := by
  have hfield := h.fieldMember l.field
  simp only [Document.labelMembers, positionMembers, List.cons_append, List.forall_mem_cons,
    List.forall_mem_append]
  exact ⟨h.text l.kind, hfield, h.word _, h.word _, nofun⟩

theorem Hereditary.childrenMember {items : List Json} (hitems : ∀ v ∈ items, P v) :
    ∀ m ∈ childrenMember items, P m.2 := by
  cases items with
  | nil => nofun
  | cons v rest => simpa [Document.childrenMember] using h.array _ hitems

theorem Hereditary.ofForest (f : Forest) : ∀ v ∈ ofForest f, P v := by
  induction f with
  | nil => nofun
  | leaf l rest ih =>
      exact List.forall_mem_cons.2
        ⟨h.record _ (List.forall_mem_cons.2 ⟨h.text _, h.leafMembers l⟩), ih⟩
  | node label children rest ihc ihr =>
      have hmembers := List.forall_mem_append.2 ⟨h.labelMembers label, h.childrenMember ihc⟩
      exact List.forall_mem_cons.2 ⟨h.record _ (List.forall_mem_cons.2 ⟨h.text _, hmembers⟩), ihr⟩

/-- **A document** has what its texts and numbers have. -/
theorem Hereditary.ofUnit (u : SourceUnit) : P (ofUnit u) := by
  have htree : P (ofNode u.tree) := h.record _
    (List.forall_mem_append.2 ⟨h.labelMembers _, h.childrenMember (h.ofForest u.tree.children)⟩)
  have hproblem : ∀ p, P (ofProblem p) := fun p =>
    h.record _ (by simpa [positionMembers] using ⟨h.word _, h.word _, h.text _⟩)
  refine h.record _ ?_
  simpa using ⟨h.text u.name, htree, h.array _ (by simpa using fun p _ => hproblem p)⟩

end

theorem areSound_of_forall {items : List Json} (h : ∀ v ∈ items, v.isSound = true) :
    areSound items = true := by
  induction items with
  | nil => rfl
  | cons v rest ih =>
      obtain ⟨hv, hrest⟩ := List.forall_mem_cons.1 h
      rw [areSound, hv, ih hrest]
      rfl

theorem membersAreSound_of_forall {members : List (String × Json)}
    (h : ∀ m ∈ members, m.2.isSound = true) :
    membersAreSound (members.map fun (name, value) => (some name, value)) = true := by
  induction members with
  | nil => rfl
  | cons m rest ih =>
      obtain ⟨hm, hrest⟩ := List.forall_mem_cons.1 h
      rw [List.map_cons, membersAreSound, hm, ih hrest]
      rfl

theorem hereditary_isSound : Hereditary fun v => v.isSound = true where
  text _ := rfl
  word w := by
    rw [ofWord, isSound]
    exact isFinite_writeWord w
  array items hitems := by
    rw [isSound]
    exact areSound_of_forall hitems
  record members hmembers := by
    rw [record, isSound]
    exact membersAreSound_of_forall hmembers

theorem hereditary_hasNaturals : Hereditary HasNaturals where
  text s := by simp [text, HasNaturals]
  word w := by
    rw [ofWord, HasNaturals]
    exact ⟨w.toNat, rfl⟩
  array items hitems := by
    rw [HasNaturals]
    exact allHaveNaturals_of_forall hitems
  record members hmembers := by
    rw [record, HasNaturals]
    exact membersHaveNaturals_of_forall hmembers

/-! ## units -/

/-- **A tree** is read from its document. -/
theorem node?_ofNode (n : Node) : node? (ofNode n) = some n := by
  have hsound : areSound (ofForest n.children) = true :=
    areSound_of_forall (hereditary_isSound.ofForest n.children)
  have hforest : (partsOf?.view (.array (ofForest n.children))).forest = some n.children := by
    simp [partsOf?.view, hsound, elements?_ofForest]
  have hnode := nodeOf?_nodeMembers n partsOf?.view (fun _ => rfl) hforest
  simpa [node?, ofNode, record, partsOf?, viewed, Function.comp_def] using hnode

theorem problem?_ofProblem (p : Problem) : problem? (ofProblem p) = some p := by
  obtain ⟨⟨line, column⟩, message⟩ := p
  simp [problem?, ofProblem, record, plainParts?, positionMembers, Parts.fields?, text?_text,
    word?_ofWord, readOr]

theorem problems?_ofProblem (problems : List Problem) :
    problems? (.array (problems.map ofProblem)) = some problems := by
  rw [problems?]
  induction problems with
  | nil => rfl
  | cons p problems ih => simp [problem?_ofProblem, ih]

/-- **A unit** is read from its document. -/
theorem unit?_ofUnit (u : SourceUnit) : unit? (ofUnit u) = some u := by
  simp [unit?, ofUnit, record, plainParts?, Parts.fields?, text?_text, node?_ofNode,
    problems?_ofProblem, readOr]

end QueryAudit.Document
