import QueryAudit.Notation.Reader
import QueryAudit.Proofs.Notation.Soundness

/-!
# QueryAudit.Proofs.Notation.Grammar

The grammar of the notation.  An element is a quoted text or a node, behind a field
label or not; a node is a header and elements between brackets.  `Derives` says which
lexemes make up a forest, and which of its elements give a position; the others
inherit the last one that is given before them in document order.

* `inherited` — the positions of elements when some of them give one;
* `readFrom_of_derives`, `Finishes` — what is read, and what has been read, is derived;
* `read_iff_derives` — exactly the texts that derive a tree are read.
-/

namespace QueryAudit

open Notation

/-- The positions of the elements of a forest, in document order. -/
def Forest.positions : Forest → List Position
  | .nil => []
  | .leaf l rest => l.position :: rest.positions
  | .node label children rest => label.position :: (children.positions ++ rest.positions)

namespace Notation

/-! ## positions that are inherited -/

/-- The last position that is given, or `position` when there is none. -/
def lastGiven (position : Position) (given : List (Option Position)) : Position :=
  (given.filterMap id).getLast?.getD position

/-- The positions of elements some of which give one: each has the last one that is
given up to it, or `position` when there is none. -/
def inherited (position : Position) (given : List (Option Position)) : List Position :=
  (List.range given.length).map fun n => lastGiven position (given.take (n + 1))

@[simp] theorem lastGiven_nil (position : Position) : lastGiven position [] = position := rfl

theorem lastGiven_cons (position : Position) (g : Option Position)
    (given : List (Option Position)) :
    lastGiven position (g :: given) = lastGiven (g.getD position) given := by
  cases g <;> simp [lastGiven, List.getLast?_cons]

theorem lastGiven_append (position : Position) (given given' : List (Option Position)) :
    lastGiven position (given ++ given') = lastGiven (lastGiven position given) given' := by
  induction given generalizing position with
  | nil => rfl
  | cons g given ih => rw [List.cons_append, lastGiven_cons, ih, lastGiven_cons]

theorem inherited_cons (position : Position) (g : Option Position)
    (given : List (Option Position)) :
    inherited position (g :: given) = g.getD position :: inherited (g.getD position) given := by
  simp [inherited, List.range_succ_eq_map, lastGiven_cons]

theorem inherited_append (position : Position) (given given' : List (Option Position)) :
    inherited position (given ++ given')
      = inherited position given ++ inherited (lastGiven position given) given' := by
  induction given generalizing position with
  | nil => rfl
  | cons g given ih =>
      rw [List.cons_append, inherited_cons, inherited_cons, ih, lastGiven_cons, List.cons_append]

@[simp] theorem length_inherited (position : Position) (given : List (Option Position)) :
    (inherited position given).length = given.length := by
  simp [inherited]

/-! ## the grammar -/

/-- What the first atom of a node says: its kind, or its kind and its position, cut at
the first `@`. -/
inductive IsHeader : String → String → Option Position → Prop
  | kind {kind : String} : '@' ∉ kind.toList → IsHeader kind kind none
  | placed {header kind : String} {spec : List Char} {p : Position} :
      header.toList = kind.toList ++ '@' :: spec → '@' ∉ kind.toList → IsPosition spec p →
      IsHeader header kind (some p)

/-- The lexemes of a field label. -/
def fieldLexemes : Option String → List Lexeme
  | none => []
  | some field => [.atom field, .equals]

/-- The lexemes that make up a forest, and the positions that its elements are given,
in document order. -/
inductive Derives : List Lexeme → Forest → List (Option Position) → Prop
  | nil : Derives [] .nil []
  | leaf {l : Leaf} {given : Option Position} {lexemes : List Lexeme} {rest : Forest}
      {givens : List (Option Position)} : Derives lexemes rest givens →
      Derives (fieldLexemes l.field ++ .text l.text given :: lexemes) (.leaf l rest)
        (given :: givens)
  | node {label : Label} {header : String} {given : Option Position}
      {inner lexemes : List Lexeme} {children rest : Forest}
      {givens givens' : List (Option Position)} : IsHeader header label.kind given →
      Derives inner children givens → Derives lexemes rest givens' →
      Derives (fieldLexemes label.field
          ++ .opening :: .atom header :: (inner ++ .closing :: lexemes))
        (.node label children rest) (given :: (givens ++ givens'))

/-- Each element gives a position or does not. -/
theorem Derives.length_eq {lexemes : List Lexeme} {f : Forest} {givens : List (Option Position)}
    (h : Derives lexemes f givens) : givens.length = f.positions.length := by
  induction h with
  | nil => rfl
  | leaf _ ih => rw [Forest.positions, List.length_cons, List.length_cons, ih]
  | node _ _ _ ihc ihr =>
      simp only [Forest.positions, List.length_cons, List.length_append, ihc, ihr]

theorem readHeader_eq_ok_iff {position position' : Position} {header kind : String} :
    readHeader position header = .ok (kind, position') ↔
      ∃ given, IsHeader header kind given ∧ position' = given.getD position := by
  constructor
  · intro h
    unfold readHeader at h
    split at h
    · next hcut =>
      cases h
      exact ⟨none, .kind (cut_eq_none_iff.1 hcut), rfl⟩
    · next before spec hcut =>
      split at h
      · contradiction
      · next hspec =>
        cases h
        refine ⟨some position', .placed ?_ ?_ (readPosition_eq_some_iff.1 hspec), rfl⟩
        · rw [String.toList_ofList, ← eq_append_of_cut hcut]
        · rw [String.toList_ofList]
          exact not_mem_of_cut hcut
  · rintro ⟨given, hkind | ⟨hheader, hkind, hspec⟩, rfl⟩
    · exact readHeader_of_not_mem hkind
    · rw [readHeader, hheader, cut_append_cons hkind]
      simp only [readPosition_eq_some_iff.2 hspec, String.ofList_toList]

/-- A header is refused when what follows its first `@` is no position. -/
theorem readHeader_eq_error_iff {position : Position} {header spec : String} :
    readHeader position header = .error spec ↔
      ∃ kind, header.toList = kind ++ '@' :: spec.toList ∧ '@' ∉ kind ∧
        ∀ p, ¬ IsPosition spec.toList p := by
  constructor
  · intro h
    unfold readHeader at h
    split at h
    · contradiction
    · next kind cs hcut =>
      split at h
      · next hspec =>
        cases h
        refine ⟨kind, ?_, not_mem_of_cut hcut, fun p hp => ?_⟩
        · rw [String.toList_ofList, ← eq_append_of_cut hcut]
        · rw [String.toList_ofList, ← readPosition_eq_some_iff, hspec] at hp
          contradiction
      · contradiction
  · rintro ⟨kind, hheader, hkind, hspec⟩
    have hnone : readPosition spec.toList = none :=
      Option.eq_none_iff_forall_ne_some.2 fun p hp => hspec p (readPosition_eq_some_iff.1 hp)
    rw [readHeader, hheader, cut_append_cons hkind]
    simp only [hnone, String.ofList_toList]

/-! ## from lexemes to a tree -/

theorem eq_cons_of_map {lexemes : List (Lexeme × Nat)} {lexeme : Lexeme} {rest : List Lexeme}
    (h : lexemes.map (·.1) = lexeme :: rest) :
    ∃ offset tail, lexemes = (lexeme, offset) :: tail ∧ tail.map (·.1) = rest := by
  obtain ⟨⟨first, offset⟩, tail, heq, hfirst, htail⟩ := List.map_eq_cons_iff.1 h
  cases hfirst
  exact ⟨offset, tail, heq, htail⟩

/-- The label of a field waits for its element. -/
theorem readFrom_fieldLexemes {field : Option String} {lexemes : List (Lexeme × Nat)}
    {rest : List Lexeme} (h : lexemes.map (·.1) = fieldLexemes field ++ rest)
    (opened : List OpenNode) (position : Position) :
    ∃ later, later.map (·.1) = rest ∧
      readFrom opened none position lexemes = readFrom opened field position later := by
  cases field with
  | none => exact ⟨lexemes, h, rfl⟩
  | some field =>
      obtain ⟨offset, tail, rfl, htail⟩ := eq_cons_of_map h
      obtain ⟨place, later, rfl, hlater⟩ := eq_cons_of_map htail
      exact ⟨later, hlater, by rw [readFrom]⟩

/-- The opening of a node is read, and its children come next. -/
theorem readFrom_opening {label : Label} {header : String} {given : Option Position}
    (hheader : IsHeader header label.kind given) {lexemes : List (Lexeme × Nat)}
    {rest : List Lexeme}
    (h : lexemes.map (·.1) = fieldLexemes label.field ++ .opening :: .atom header :: rest)
    (opened : List OpenNode) (hopened : opened.length < maxDepth) {position : Position}
    (hposition : label.position = given.getD position) :
    ∃ later, later.map (·.1) = rest ∧ readFrom opened none position lexemes
      = readFrom (⟨label, []⟩ :: opened) none label.position later := by
  obtain ⟨behind, hbehind, hfield⟩ := readFrom_fieldLexemes h opened position
  obtain ⟨offset, tail, rfl, htail⟩ := eq_cons_of_map hbehind
  obtain ⟨place, later, rfl, hlater⟩ := eq_cons_of_map htail
  refine ⟨later, hlater, ?_⟩
  rw [hfield, readFrom, if_neg (Nat.ne_of_lt hopened)]
  simp only [readHeader_eq_ok_iff.2 ⟨given, hheader, hposition⟩]

/-- A node that is open with further children. -/
def OpenNode.add (o : OpenNode) (f : Forest) : OpenNode :=
  { o with children := f.elements.reverse ++ o.children }

@[simp] theorem OpenNode.add_nil (o : OpenNode) : o.add .nil = o := rfl

@[simp] theorem OpenNode.add_leaf (o : OpenNode) (l : Leaf) (rest : Forest) :
    o.add (.leaf l rest) = (o.push (.leaf l)).add rest := by
  simp [add, push, Forest.elements]

@[simp] theorem OpenNode.add_node (o : OpenNode) (label : Label) (children rest : Forest) :
    o.add (.node label children rest) = (o.push (.node ⟨label, children⟩)).add rest := by
  simp [add, push, Forest.elements]

@[simp] theorem OpenNode.close_add (label : Label) (children : Forest) :
    (OpenNode.add ⟨label, []⟩ children).close = ⟨label, children⟩ := by
  have hchildren : Forest.prependReversed .nil (children.elements.reverse ++ []) = children := by
    rw [← Forest.ofElements_elements (Forest.prependReversed _ _), Forest.elements_prependReversed]
    simp [Forest.elements]
  simp only [close, add, hchildren]

/-- **A forest that is read** becomes children of the innermost open node, unless it nests too
deeply. -/
theorem readFrom_of_derives {derived : List Lexeme} {f : Forest}
    {givens : List (Option Position)} (hderives : Derives derived f givens) (o : OpenNode)
    (outer : List OpenNode) (houter : outer.length + 1 ≤ maxDepth)
    {lexemes : List (Lexeme × Nat)} {rest : List Lexeme}
    (h : lexemes.map (·.1) = derived ++ rest) {position : Position}
    (hpositions : f.positions = inherited position givens) :
    (∃ later, later.map (·.1) = rest ∧ readFrom (o :: outer) none position lexemes
        = readFrom (o.add f :: outer) none (lastGiven position givens) later) ∨
      maxDepth < outer.length + 1 + f.depth ∧
        ∃ offset, readFrom (o :: outer) none position lexemes = .error (.tooDeep offset) := by
  induction hderives generalizing o outer lexemes rest position with
  | nil => exact .inl ⟨lexemes, h, rfl⟩
  | @leaf l given derived siblings givens _ ih =>
      rw [inherited_cons, Forest.positions, List.cons.injEq] at hpositions
      obtain ⟨hposition, hsiblings⟩ := hpositions
      rw [← hposition] at hsiblings
      rw [List.append_assoc] at h
      obtain ⟨behind, hbehind, hfield⟩ := readFrom_fieldLexemes h (o :: outer) position
      obtain ⟨offset, tail, rfl, htail⟩ := eq_cons_of_map hbehind
      rw [hfield, readFrom, OpenNode.add_leaf, lastGiven_cons, ← hposition]
      exact ih (o.push (.leaf l)) outer houter htail hsiblings
  | @node label header given inner derived children siblings givens givens' hheader hc _ ihc ihs =>
      rw [inherited_cons, inherited_append, Forest.positions, List.cons.injEq] at hpositions
      obtain ⟨hposition, hbelow⟩ := hpositions
      obtain ⟨hchildren, hsiblings⟩ := List.append_inj hbelow (by simp [hc.length_eq])
      rw [← hposition] at hchildren hsiblings
      rw [Forest.depth]
      rw [List.append_assoc, List.cons_append, List.cons_append, List.append_assoc] at h
      by_cases hfull : (o :: outer).length = maxDepth
      · obtain ⟨behind, hbehind, hfield⟩ := readFrom_fieldLexemes h (o :: outer) position
        obtain ⟨offset, tail, rfl, htail⟩ := eq_cons_of_map hbehind
        obtain ⟨place, later, rfl, -⟩ := eq_cons_of_map htail
        rw [List.length_cons] at hfull
        refine .inr ⟨by omega, offset, ?_⟩
        rw [hfield, readFrom, List.length_cons, if_pos hfull]
      · have hlength : (o :: outer).length < maxDepth := Nat.lt_of_le_of_ne houter hfull
        obtain ⟨inside, hinside, hopen⟩ :=
          readFrom_opening hheader h (o :: outer) hlength hposition
        rw [hopen, lastGiven_cons, lastGiven_append, ← hposition]
        rcases ihc ⟨label, []⟩ (o :: outer) hlength hinside hchildren with
          ⟨behind, hbehind, hread⟩ | ⟨hdeep, htooDeep⟩
        · obtain ⟨offset, tail, rfl, htail⟩ := eq_cons_of_map hbehind
          rw [hread, readFrom, OpenNode.close_add, OpenNode.add_node]
          rcases ihs (o.push (.node ⟨label, children⟩)) outer houter htail hsiblings with
            hlater | ⟨hdeep, htooDeep⟩
          · exact .inl hlater
          · exact .inr ⟨by omega, htooDeep⟩
        · rw [List.length_cons] at hdeep
          exact .inr ⟨by omega, htooDeep⟩

/-! ## from a tree to lexemes -/

/-- A forest that stands after `position` is derived, and its last position is `last`. -/
def Reads (position : Position) (lexemes : List Lexeme) (f : Forest) (last : Position) : Prop :=
  ∃ givens, Derives lexemes f givens ∧ f.positions = inherited position givens ∧
    last = lastGiven position givens

section

variable {position position' last : Position} {lexemes rest : List Lexeme} {f children : Forest}

theorem reads_nil (position : Position) : Reads position [] .nil position :=
  ⟨[], .nil, rfl, rfl⟩

theorem Reads.leaf (h : Reads position' lexemes f last) (l : Leaf) {given : Option Position}
    (hgiven : position' = given.getD position) (hposition : l.position = position') :
    Reads position (fieldLexemes l.field ++ .text l.text given :: lexemes) (.leaf l f) last := by
  obtain ⟨givens, hderives, hpositions, hlast⟩ := h
  refine ⟨given :: givens, .leaf hderives, ?_, ?_⟩
  · rw [Forest.positions, inherited_cons, ← hgiven, hpositions, hposition]
  · rw [lastGiven_cons, ← hgiven, hlast]

theorem Reads.node {label : Label} (h : Reads label.position lexemes children position')
    (h' : Reads position' rest f last) {header : String} {given : Option Position}
    (hheader : IsHeader header label.kind given) (hposition : label.position = given.getD position) :
    Reads position (fieldLexemes label.field
        ++ .opening :: .atom header :: (lexemes ++ .closing :: rest)) (.node label children f) last := by
  obtain ⟨givens, hderives, hpositions, rfl⟩ := h
  obtain ⟨givens', hderives', hpositions', rfl⟩ := h'
  refine ⟨given :: (givens ++ givens'), .node hheader hderives hderives', ?_, ?_⟩
  · rw [Forest.positions, inherited_cons, inherited_append, ← hposition, hpositions, hpositions']
  · rw [lastGiven_cons, lastGiven_append, ← hposition]

end

/-- What is still to be read when some nodes are open: for each of them its further
children and its closing bracket, and the node itself when none is open. -/
inductive Finishes : List OpenNode → Position → List Lexeme → Node → Prop
  | start {position last : Position} {lexemes : List Lexeme} {t : Node} :
      Reads position lexemes t.toForest last → Finishes [] position lexemes t
  | root {position last : Position} {lexemes : List Lexeme} {f : Forest} {o : OpenNode} :
      Reads position lexemes f last → Finishes [o] position (lexemes ++ [.closing]) (o.add f).close
  | inner {position last : Position} {lexemes later : List Lexeme} {f : Forest}
      {o parent : OpenNode} {outer : List OpenNode} {t : Node} :
      Reads position lexemes f last →
      Finishes (parent.push (.node (o.add f).close) :: outer) last later t →
      Finishes (o :: parent :: outer) position (lexemes ++ .closing :: later) t

theorem Finishes.leaf {position position' : Position} {lexemes : List Lexeme} {l : Leaf}
    {parent : OpenNode} {outer : List OpenNode} {t : Node}
    (h : Finishes (parent.push (.leaf l) :: outer) position' lexemes t) {given : Option Position}
    (hgiven : position' = given.getD position) (hposition : l.position = position') :
    Finishes (parent :: outer) position (fieldLexemes l.field ++ .text l.text given :: lexemes) t := by
  cases h with
  | root hreads =>
      have hroot := Finishes.root (o := parent) (hreads.leaf l hgiven hposition)
      simpa using hroot
  | inner hreads hfinishes =>
      rw [← OpenNode.add_leaf] at hfinishes
      have hinner := Finishes.inner (hreads.leaf l hgiven hposition) hfinishes
      simpa using hinner

theorem Finishes.node {position : Position} {lexemes : List Lexeme} {label : Label}
    {opened : List OpenNode} {t : Node}
    (h : Finishes (⟨label, []⟩ :: opened) label.position lexemes t) {header : String}
    {given : Option Position} (hheader : IsHeader header label.kind given)
    (hposition : label.position = given.getD position) :
    Finishes opened position
      (fieldLexemes label.field ++ .opening :: .atom header :: lexemes) t := by
  cases h with
  | root hreads =>
      rw [OpenNode.close_add]
      exact .start (hreads.node (reads_nil _) hheader hposition)
  | @inner _ _ _ _ _ _ parent _ _ hreads hfinishes =>
      rw [OpenNode.close_add] at hfinishes
      cases hfinishes with
      | root hreads' =>
          have hroot := Finishes.root (o := parent) (hreads.node hreads' hheader hposition)
          simpa using hroot
      | inner hreads' hfinishes' =>
          rw [← OpenNode.add_node] at hfinishes'
          have hinner := Finishes.inner (hreads.node hreads' hheader hposition) hfinishes'
          simpa using hinner

/-- **What has been read** was still to be read: put back the field label that waits
for its element. -/
theorem finishes_of_readFrom {opened : List OpenNode} {field : Option String}
    {position : Position} {lexemes : List (Lexeme × Nat)} {t : Node}
    (h : readFrom opened field position lexemes = .ok t) :
    Finishes opened position (fieldLexemes field ++ lexemes.map (·.1)) t := by
  fun_induction readFrom opened field position lexemes with
  | case2 opened position name offset place rest ih => exact ih h
  | case6 field position s given offset rest parent outer position' ih =>
      exact (ih h).leaf (l := ⟨s, field, position'⟩) rfl rfl
  | case10 opened field position offset hlength header place rest kind position' hheader ih =>
      obtain ⟨given, hheader, hgiven⟩ := readHeader_eq_ok_iff.1 hheader
      have hfinishes : Finishes (⟨⟨kind, field, position'⟩, []⟩ :: opened) position'
          (rest.map (·.1)) t := ih h
      exact hfinishes.node hheader hgiven
  | case12 position offset rest node parent outer ih =>
      exact .inner (o := node) (reads_nil position) (ih h)
  | case13 position offset root =>
      cases h
      exact .root (o := root) (reads_nil position)
  | _ => contradiction

/-! ## the texts that are read -/

/-- A tree that is derived is read, unless it nests too deeply. -/
theorem readFrom_root_of_derives {lexemes : List (Lexeme × Nat)} {position : Position} {t : Node}
    {givens : List (Option Position)} (hderives : Derives (lexemes.map (·.1)) t.toForest givens)
    (hpositions : t.toForest.positions = inherited position givens) :
    readFrom [] none position lexemes = .ok t ∨
      maxDepth < t.depth ∧
        ∃ offset, readFrom [] none position lexemes = .error (.tooDeep offset) := by
  generalize hmap : lexemes.map (·.1) = derived at hderives
  rw [Node.toForest] at hderives hpositions
  cases hderives with
  | node hheader hchildren hnil =>
      cases hnil
      rw [inherited_cons, List.append_nil, Forest.positions, Forest.positions, List.append_nil,
        List.cons.injEq] at hpositions
      obtain ⟨hposition, hpositions⟩ := hpositions
      rw [← hposition] at hpositions
      obtain ⟨inside, hinside, hopen⟩ := readFrom_opening hheader hmap [] (by decide) hposition
      rw [hopen]
      rcases readFrom_of_derives hchildren ⟨t.toLabel, []⟩ [] (by decide) hinside
        hpositions with ⟨behind, hbehind, hread⟩ | ⟨hdeep, htooDeep⟩
      · obtain ⟨offset, tail, rfl, htail⟩ := eq_cons_of_map hbehind
        cases List.map_eq_nil_iff.1 htail
        exact .inl (by rw [hread, readFrom, OpenNode.close_add])
      · rw [List.length_nil] at hdeep
        exact .inr ⟨by rw [Node.depth]; omega, htooDeep⟩

/-- Exactly the lexemes that derive a tree are read. -/
theorem readFrom_eq_ok_iff {lexemes : List (Lexeme × Nat)}
    (hlexemes : ∀ l ∈ lexemes, l.1.isProper = true) {position : Position} {t : Node} :
    readFrom [] none position lexemes = .ok t ↔
      ∃ givens, Derives (lexemes.map (·.1)) t.toForest givens ∧ t.depth ≤ maxDepth ∧
        t.toForest.positions = inherited position givens := by
  constructor
  · intro h
    have hdepth := (Bool.and_eq_true_iff.1 (wellFormed_of_readFrom h trivial rfl hlexemes)).1
    cases finishes_of_readFrom h with
    | start hreads =>
        obtain ⟨givens, hderives, hpositions, -⟩ := hreads
        exact ⟨givens, hderives, of_decide_eq_true hdepth, hpositions⟩
  · rintro ⟨givens, hderives, hdepth, hpositions⟩
    exact (readFrom_root_of_derives hderives hpositions).resolve_right
      fun hdeep => Nat.not_lt.2 hdepth hdeep.1

/-- A text is read as a tree if its lexemes derive the tree. -/
theorem read_eq_ok_iff (s : String) (t : Node) :
    read s = .ok t ↔ ∃ lexemes givens, lex s = .ok lexemes ∧
      Derives (lexemes.map (·.1)) t.toForest givens ∧ t.depth ≤ maxDepth ∧
      t.toForest.positions = inherited ⟨1, 0⟩ givens := by
  rw [read]
  cases hlex : lex s with
  | error e => simp
  | ok lexemes =>
      simp only [readFrom_eq_ok_iff (isProper_of_mem_lex hlex), Except.ok.injEq]
      constructor
      · rintro ⟨givens, h⟩
        exact ⟨lexemes, givens, rfl, h⟩
      · rintro ⟨_, givens, rfl, h⟩
        exact ⟨givens, h⟩

/-- Of a laid out text only the lexemes matter. -/
theorem read_textOf_iff {ending : List Char} {chunks : List Chunk} (h : Laid ending chunks)
    (t : Node) : read (String.ofList (textOf ending chunks)) = .ok t ↔
      ∃ givens, Derives (chunks.map Chunk.lexeme) t.toForest givens ∧ t.depth ≤ maxDepth ∧
        t.toForest.positions = inherited ⟨1, 0⟩ givens := by
  obtain ⟨found, hlex, hfound⟩ :=
    (exists_lex_iff_laid _ _).2 ⟨ending, chunks, h, String.toList_ofList.symm, rfl⟩
  rw [read_eq_ok_iff, ← hfound]
  simp only [hlex, Except.ok.injEq]
  constructor
  · rintro ⟨_, givens, rfl, h⟩
    exact ⟨givens, h⟩
  · rintro ⟨givens, h⟩
    exact ⟨found, givens, rfl, h⟩

/-- **Grammar**: exactly the texts whose lexemes derive a tree are read, and as that tree;
a text has the lexemes that it is laid out with; and another gap in front of a lexeme does
not change the tree. -/
theorem read_iff_derives :
    (∀ (s : String) (t : Node), read s = .ok t ↔
      ∃ lexemes givens, lex s = .ok lexemes ∧
        Derives (lexemes.map (·.1)) t.toForest givens ∧ t.depth ≤ maxDepth ∧
        t.toForest.positions = inherited ⟨1, 0⟩ givens) ∧
    (∀ (s : String) (lexemes : List Lexeme),
      (∃ found, lex s = .ok found ∧ found.map (·.1) = lexemes) ↔
        ∃ ending chunks, Laid ending chunks ∧ textOf ending chunks = s.toList ∧
          chunks.map Chunk.lexeme = lexemes) ∧
    ∀ (ending : List Char) (before : List Chunk) (c : Chunk) (after : List Chunk)
      (gap : List Char) (t : Node), Laid ending (before ++ c :: after) → Gap gap → gap ≠ [] →
      (read (String.ofList (textOf ending (before ++ { c with gap } :: after))) = .ok t ↔
        read (String.ofList (textOf ending (before ++ c :: after))) = .ok t) := by
  refine ⟨read_eq_ok_iff, exists_lex_iff_laid, ?_⟩
  intro ending before c after gap t hlaid hgap hne
  have hlexemes : (before ++ { c with gap } :: after).map Chunk.lexeme
      = (before ++ c :: after).map Chunk.lexeme := by simp
  rw [read_textOf_iff (hlaid.setGap hgap hne), read_textOf_iff hlaid, hlexemes]

/-- `(a@3 "x\n")`: a node with a position, and a leaf that inherits it. -/
def placedTree : Node := ⟨⟨"a", none, ⟨3, 0⟩⟩, .leaf ⟨"x\n", none, ⟨3, 0⟩⟩ .nil⟩

/-- The leaf of `placedTree` and what stands around it. -/
def placedLeaf : Chunk := ⟨[' '], "\"x\\n\"".toList, .text "x\n" none⟩

def beforeLeaf : List Chunk := [⟨[], ['('], .opening⟩, ⟨[], "a@3".toList, .atom "a@3"⟩]

def afterLeaf : List Chunk := [⟨[], [')'], .closing⟩]

theorem laid_placedLeaf : Laid [] (beforeLeaf ++ placedLeaf :: afterLeaf) := by
  have hescaped : Escaped ['x', '\\', 'n'] ['x', '\n'] :=
    .plain (by decide) (by decide) (.newline .nil)
  refine .cons .nil .opening trivial ?_
  refine .cons .nil (.atom (by decide)) ?_ ?_
  · intro c hc
    cases hc
    decide
  refine .cons (.blank (by decide) .nil) (.text hescaped) ?_ ?_
  · intro hat
    cases hat
  exact .cons .nil .closing trivial (.nil (.gap .nil))

theorem derives_placedLeaf :
    Derives ((beforeLeaf ++ placedLeaf :: afterLeaf).map Chunk.lexeme) placedTree.toForest
      [some ⟨3, 0⟩, none] := by
  have hspec : IsPosition ['3'] ⟨3, 0⟩ :=
    .line ⟨['3'], .inl rfl, by simp, by simp, by decide⟩
  have hheader : IsHeader "a@3" "a" (some ⟨3, 0⟩) := .placed (by decide) (by decide) hspec
  have hleaf := @Derives.leaf ⟨"x\n", none, ⟨3, 0⟩⟩ none [] .nil [] .nil
  exact @Derives.node ⟨"a", none, ⟨3, 0⟩⟩ _ _ _ _ _ _ _ _ hheader hleaf .nil

/-- A comment can stand in the place of the space before the leaf. -/
theorem read_commentBeforeLeaf :
    Laid [] (beforeLeaf ++ placedLeaf :: afterLeaf) ∧ Gap [';', 'c', '\n'] ∧
      [';', 'c', '\n'] ≠ [] ∧
      read (String.ofList (textOf []
        (beforeLeaf ++ { placedLeaf with gap := [';', 'c', '\n'] } :: afterLeaf)))
        = .ok placedTree := by
  have hgap : Gap [';', 'c', '\n'] := Gap.comment (show '\n' ∉ ['c'] by decide) .nil
  have hread : read (String.ofList (textOf [] (beforeLeaf ++ placedLeaf :: afterLeaf)))
      = .ok placedTree :=
    (read_textOf_iff laid_placedLeaf placedTree).2 ⟨_, derives_placedLeaf, by decide, by decide⟩
  refine ⟨laid_placedLeaf, hgap, by simp, ?_⟩
  exact (read_iff_derives.2.2 [] beforeLeaf placedLeaf afterLeaf [';', 'c', '\n'] placedTree
    laid_placedLeaf hgap (by simp)).2 hread

end Notation

end QueryAudit
