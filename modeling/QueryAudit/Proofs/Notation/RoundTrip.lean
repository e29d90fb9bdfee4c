import QueryAudit.Notation.Printer
import QueryAudit.Proofs.Notation.Grammar

/-!
# QueryAudit.Proofs.Notation.RoundTrip

A tree that is written down is read back.  What the printer writes is cut into
the lexemes that `Forest.lexemes` lists, and these derive the tree.

* `lexes_writeOnto` — the lexemes of a written forest;
* `derives_lexemes` — these lexemes derive the forest, with all positions given;
* `read_write_iff` — exactly the well-formed trees are read back.
-/

namespace QueryAudit

open Notation

/-! ## the lexemes of a tree -/

namespace Notation

/-- A kind with its position, as one atom. -/
def header (l : Label) : String := String.ofList (l.kind.toList ++ writePosition l.position)

/-- The lexemes of the opening of a node. -/
def labelLexemes (l : Label) : List Lexeme :=
  fieldLexemes l.field ++ [.opening, .atom (header l)]

end Notation

/-- The lexemes of a forest. -/
def Forest.lexemes : Forest → List Lexeme
  | .nil => []
  | .leaf l rest => fieldLexemes l.field ++ .text l.text (some l.position) :: rest.lexemes
  | .node label children rest =>
    labelLexemes label ++ (children.lexemes ++ .closing :: rest.lexemes)

namespace Notation

/-! ## writing -/

theorem readPosition_writePosition (p : Position) :
    readPosition ((writeWord p.line).toList ++ ':' :: (writeWord p.column).toList) = some p := by
  have hline : ':' ∉ (writeWord p.line).toList := by
    intro hmem
    have hdigit := isDigit_of_mem_writeWord hmem
    contradiction
  rw [readPosition, cut_append_cons hline]
  simp only [readWord_writeWord]

theorem isPositionChar_of_mem {p : Position} {c : Char}
    (h : c ∈ (writeWord p.line).toList ++ ':' :: (writeWord p.column).toList) :
    isPositionChar c = true := by
  rw [isPositionChar, Bool.or_eq_true, beq_iff_eq]
  rcases List.mem_append.1 h with h | h
  · exact Or.inl (isDigit_of_mem_writeWord h)
  · rcases List.mem_cons.1 h with h | h
    · exact Or.inr h
    · exact Or.inl (isDigit_of_mem_writeWord h)

theorem escaped_escape_append {c : Char} {raw text : List Char} (h : Escaped raw text) :
    Escaped (escape c ++ raw) (c :: text) := by
  unfold escape
  by_cases hquote : c = '"'
  · rw [if_pos hquote, hquote]
    exact .other (by decide) (by decide) h
  by_cases hbackslash : c = '\\'
  · rw [if_neg hquote, if_pos hbackslash, hbackslash]
    exact .other (by decide) (by decide) h
  by_cases hline : c = '\n'
  · rw [if_neg hquote, if_neg hbackslash, if_pos hline, hline]
    exact .newline h
  by_cases htab : c = '\t'
  · rw [if_neg hquote, if_neg hbackslash, if_neg hline, if_pos htab, htab]
    exact .tab h
  · rw [if_neg hquote, if_neg hbackslash, if_neg hline, if_neg htab]
    exact .plain hquote hbackslash h

theorem escaped_flatMap_escape (text : List Char) : Escaped (text.flatMap escape) text := by
  induction text with
  | nil => exact .nil
  | cons c text ih => exact escaped_escape_append ih

/-- A quoted text with its position in front of a break is one lexeme. -/
theorem lexes_text (s : String) (p : Position) {rest : List Char} {lexemes : List Lexeme}
    (hbreak : Breaks rest) (h : Lexes rest lexemes) :
    Lexes (writeText s ++ writePosition p ++ rest) (.text s (some p) :: lexemes) := by
  have hspells := Spells.placed (escaped_flatMap_escape s.toList) (fun _ => isPositionChar_of_mem)
    (readPosition_eq_some_iff.1 (readPosition_writePosition p))
  rw [String.ofList_toList] at hspells
  have hends : (Lexeme.text s (some p)).EndsBefore rest := by
    intro c hc
    cases hposition : isPositionChar c with
    | false => rfl
    | true =>
        have hdelimiter := hbreak c hc
        rw [isDelimiter_of_isPositionChar hposition] at hdelimiter
        contradiction
  have hlexes := lexes_spells hspells hends h
  simpa [writeText, writePosition] using hlexes

theorem not_isDelimiter_of_mem_writePosition {p : Position} {c : Char}
    (h : c ∈ writePosition p) : isDelimiter c = false := by
  rcases List.mem_cons.1 h with rfl | h
  · decide
  · exact isDelimiter_of_isPositionChar (isPositionChar_of_mem h)

theorem isName_header {l : Label} (h : isKind l.kind = true) : isName (header l) = true := by
  rw [isKind, List.all_eq_true] at h
  rw [isName, header, String.toList_ofList, Bool.and_eq_true, List.all_eq_true]
  constructor
  · simp [writePosition]
  · intro c hc
    rcases List.mem_append.1 hc with hc | hc
    · exact (Bool.and_eq_true_iff.1 (h c hc)).2
    · rw [not_isDelimiter_of_mem_writePosition hc]
      rfl

theorem lexes_writeField {field : Option String} {rest : List Char} {lexemes : List Lexeme}
    (hfield : field.all isName = true) (h : Lexes rest lexemes) :
    Lexes (writeField field ++ rest) (fieldLexemes field ++ lexemes) := by
  cases field with
  | none => exact h
  | some field =>
      rw [writeField, List.append_assoc]
      exact lexes_atom hfield (by simp [Breaks, isDelimiter]) (lexes_equals h)

theorem lexes_writeLabel {l : Label} {rest : List Char} {lexemes : List Lexeme}
    (hlabel : l.wellFormed = true) (hbreak : Breaks rest) (h : Lexes rest lexemes) :
    Lexes (writeLabel l ++ rest) (labelLexemes l ++ lexemes) := by
  obtain ⟨hkind, hfield⟩ := Bool.and_eq_true_iff.1 hlabel
  have hatom := lexes_atom (isName_header hkind) hbreak h
  rw [header, String.toList_ofList] at hatom
  have hlexes := lexes_writeField hfield (lexes_opening hatom)
  have hchars : writeLabel l ++ rest
      = writeField l.field ++ '(' :: (l.kind.toList ++ writePosition l.position ++ rest) := by
    simp [writeLabel]
  have hlist : labelLexemes l ++ lexemes
      = fieldLexemes l.field ++ .opening :: .atom (header l) :: lexemes := by
    simp [labelLexemes]
  rw [hchars, hlist]
  exact hlexes

/-- A written forest starts with a break when what follows it does. -/
theorem breaks_writeOnto {after : List Char} (hafter : Breaks after) (depth : Nat) (f : Forest) :
    Breaks (writeOnto depth after f) := by
  cases f with
  | nil => exact hafter
  | leaf l rest => simp [Breaks, writeOnto, isDelimiter, isBlank, blankRanges]
  | node label children rest => simp [Breaks, writeOnto, isDelimiter, isBlank, blankRanges]

/-- **A written forest** is cut into its lexemes. -/
theorem lexes_writeOnto {f : Forest} (hf : f.wellFormed = true) {after : List Char}
    {lexemes : List Lexeme} (hbreak : Breaks after) (h : Lexes after lexemes) (depth : Nat) :
    Lexes (writeOnto depth after f) (f.lexemes ++ lexemes) := by
  induction f generalizing after lexemes depth with
  | nil => exact h
  | leaf l rest ih =>
      obtain ⟨hfield, hrest⟩ := Bool.and_eq_true_iff.1 hf
      have htext := lexes_text l.text l.position (breaks_writeOnto hbreak depth rest)
        (ih hrest hbreak h depth)
      have hlexes := lexes_blank (c := ' ') (by decide) (lexes_writeField hfield htext)
      have hchars : writeOnto depth after (.leaf l rest)
          = ' ' :: (writeField l.field ++ (writeText l.text ++ writePosition l.position
            ++ writeOnto depth after rest)) := by
        simp [writeOnto]
      have hlist : (Forest.leaf l rest).lexemes ++ lexemes
          = fieldLexemes l.field ++ .text l.text (some l.position) :: (rest.lexemes ++ lexemes) := by
        simp [Forest.lexemes]
      rw [hchars, hlist]
      exact hlexes
  | node label children rest ihc ihr =>
      obtain ⟨hlabel, hbelow⟩ := Bool.and_eq_true_iff.1 hf
      obtain ⟨hchildren, hrest⟩ := Bool.and_eq_true_iff.1 hbelow
      have hclosing : Breaks (')' :: writeOnto depth after rest) := by simp [Breaks, isDelimiter]
      have hinner := ihc hchildren hclosing (lexes_closing (ihr hrest hbreak h depth)) (depth + 1)
      have hlexes := lexes_blank (c := '\n') (by decide) (lexes_replicate (2 * depth)
        (lexes_writeLabel hlabel (breaks_writeOnto hclosing (depth + 1) children) hinner))
      have hchars : writeOnto depth after (.node label children rest)
          = '\n' :: (List.replicate (2 * depth) ' ' ++ (writeLabel label
            ++ writeOnto (depth + 1) (')' :: writeOnto depth after rest) children)) := by
        simp [writeOnto]
      have hlist : (Forest.node label children rest).lexemes ++ lexemes
          = labelLexemes label ++ (children.lexemes ++ .closing :: (rest.lexemes ++ lexemes)) := by
        simp [Forest.lexemes]
      rw [hchars, hlist]
      exact hlexes

/-! ## reading -/

theorem isHeader_header {l : Label} (h : isKind l.kind = true) :
    IsHeader (header l) l.kind (some l.position) := by
  refine .placed (String.toList_ofList) ?_ (readPosition_eq_some_iff.1
    (readPosition_writePosition l.position))
  intro hmem
  have hc := List.all_eq_true.1 h '@' hmem
  contradiction

/-- Every element of a written forest gives its position. -/
theorem derives_lexemes {f : Forest} (hf : f.wellFormed = true) :
    Derives f.lexemes f (f.positions.map some) := by
  induction f with
  | nil => exact .nil
  | leaf l rest ih =>
      obtain ⟨-, hrest⟩ := Bool.and_eq_true_iff.1 hf
      exact .leaf (ih hrest)
  | node label children rest ihc ihr =>
      obtain ⟨hlabel, hbelow⟩ := Bool.and_eq_true_iff.1 hf
      obtain ⟨hchildren, hrest⟩ := Bool.and_eq_true_iff.1 hbelow
      obtain ⟨hkind, -⟩ := Bool.and_eq_true_iff.1 hlabel
      have hderives := Derives.node (isHeader_header hkind) (ihc hchildren) (ihr hrest)
      simpa [Forest.lexemes, labelLexemes, Forest.positions] using hderives

theorem inherited_map_some (position : Position) (positions : List Position) :
    inherited position (positions.map some) = positions := by
  induction positions generalizing position with
  | nil => rfl
  | cons p positions ih => rw [List.map_cons, inherited_cons, Option.getD_some, ih]

/-! ## the round trip -/

theorem exists_lex_write {t : Node} (ht : t.wellFormed = true) :
    ∃ lexemes, lex (write t) = .ok lexemes ∧
      lexemes.map (·.1) = labelLexemes t.toLabel ++ (t.children.lexemes ++ [.closing]) := by
  obtain ⟨-, hlabels⟩ := Bool.and_eq_true_iff.1 ht
  obtain ⟨hlabel, hchildren⟩ := Bool.and_eq_true_iff.1 hlabels
  have hbreak : Breaks [')'] := by simp [Breaks, isDelimiter]
  have hlexes := lexes_writeLabel hlabel (breaks_writeOnto hbreak 1 t.children)
    (lexes_writeOnto hchildren hbreak (lexes_closing lexes_nil) 1)
  obtain ⟨lexemes, hlex, hmap⟩ := hlexes 0 []
  refine ⟨lexemes, ?_, hmap⟩
  rw [lex, write, String.toList_ofList, hlex]
  rfl

/-- A well-formed tree that is written is read back. -/
theorem read_write {t : Node} (ht : t.wellFormed = true) : read (write t) = .ok t := by
  obtain ⟨hdepth, hlabels⟩ := Bool.and_eq_true_iff.1 ht
  obtain ⟨hlabel, hchildren⟩ := Bool.and_eq_true_iff.1 hlabels
  obtain ⟨lexemes, hlex, hmap⟩ := exists_lex_write ht
  have hforest : t.toForest.wellFormed = true := by
    simp only [Node.toForest, Forest.wellFormed, hlabel, hchildren, Bool.and_true]
  refine (read_eq_ok_iff _ _).2 ⟨lexemes, t.toForest.positions.map some, hlex, ?_,
    of_decide_eq_true hdepth, (inherited_map_some _ _).symm⟩
  have hlexemes : t.toForest.lexemes = lexemes.map (·.1) := hmap.symm
  rw [← hlexemes]
  exact derives_lexemes hforest

/-- **Round trip**: exactly the well-formed trees are read back when they are
written, and every tree that was read at all is one of them. -/
theorem read_write_iff :
    (∀ t : Node, read (write t) = .ok t ↔ t.wellFormed = true) ∧
      ∀ (s : String) (t : Node), read s = .ok t →
        t.wellFormed = true ∧ read (write t) = .ok t := by
  constructor
  · intro t
    exact ⟨wellFormed_of_read, read_write⟩
  · intro s t h
    have ht := wellFormed_of_read h
    exact ⟨ht, read_write ht⟩

/-- A node without a kind, with a field label and a text that needs escapes. -/
def escapedTree : Node :=
  ⟨⟨"", some "root", ⟨1, 0⟩⟩, .leaf ⟨"a\"\\;\n", none, ⟨2, 3⟩⟩ .nil⟩

theorem read_write_escapedTree :
    write escapedTree = "root=(@1:0 \"a\\\"\\\\;\\n\"@2:3)" ∧
      read (write escapedTree) = .ok escapedTree ∧ escapedTree.wellFormed = true := by
  have hread : read (write escapedTree) = .ok escapedTree :=
    (read_write_iff.1 escapedTree).2 (by decide +kernel)
  exact ⟨by decide +kernel, hread, (read_write_iff.2 (write escapedTree) escapedTree hread).1⟩

end Notation

end QueryAudit
