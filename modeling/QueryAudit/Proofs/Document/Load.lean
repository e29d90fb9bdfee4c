import QueryAudit.Proofs.Document.Depth
import QueryAudit.Proofs.Document.RoundTrip
import QueryAudit.Proofs.Notation.Soundness

/-!
# QueryAudit.Proofs.Document.Load

Which units are loaded.  A document is turned away by the count of its brackets before it is
read, and the count is how deeply its value nests.  A written unit passes whenever its tree is
accepted; what passes has a tree of at most one level too many, and then no token stands below
its deepest nodes.

* `load_of_read` — a document of a unit is loaded when it nests no more deeply than
  `maxBracketDepth`, and else it is too deep;
* `load_write` — a written unit is loaded;
* `depth_of_load` — how deep the trees of loaded units are.
-/

namespace QueryAudit.Document

open Json

/-! ## files -/

theorem fromUTF8?_toUTF8 (s : String) : String.fromUTF8? s.toUTF8 = some s := by
  rw [String.fromUTF8?, String.toUTF8_eq_toByteArray, dif_pos s.isValidUTF8]
  rfl

theorem load_toUTF8 (path text : String) : load path (some text.toUTF8) = ofText path text := by
  rw [load, Option.bind_some, fromUTF8?_toUTF8]

/-- **A document** of a unit is loaded, unless it nests too deeply. -/
theorem load_of_read {path text : String} {value : Json} {u : SourceUnit}
    (hpath : extension? path ≠ some notationExtension) (hread : Json.read text = some value)
    (hunit : unit? value = some u) :
    load path (some text.toUTF8)
      = if value.nesting ≤ maxBracketDepth then .ok u else .error (.tooDeep path) := by
  rw [load_toUTF8, ofText, if_neg hpath, bracketDepth_of_read hread, hread, Option.bind_some, hunit]
  by_cases hnesting : value.nesting ≤ maxBracketDepth
  · rw [if_neg (Nat.not_lt.2 hnesting), if_pos hnesting]
  · rw [if_pos (Nat.not_le.1 hnesting), if_neg hnesting]

/-- What is loaded comes from a notation, or from a document that does not nest too deeply. -/
theorem cases_of_load {path : String} {content : Option ByteArray} {u : SourceUnit}
    (h : load path content = .ok u) :
    (extension? path = some notationExtension ∧ u.tree.depth ≤ maxDepth) ∨
      (extension? path ≠ some notationExtension ∧
        ∃ value, unit? value = some u ∧ value.nesting ≤ maxBracketDepth) := by
  rw [load] at h
  split at h
  · contradiction
  · rename_i text _
    rw [ofText] at h
    split at h
    · rename_i hpath
      split at h
      · contradiction
      · rename_i tree htree
        cases h
        have hdepth := (Bool.and_eq_true_iff.1 (Notation.wellFormed_of_read htree)).1
        exact .inl ⟨hpath, of_decide_eq_true hdepth⟩
    · rename_i hpath
      split at h
      · contradiction
      · rename_i hbrackets
        split at h
        · contradiction
        · rename_i hdocument
          cases h
          obtain ⟨value, hread, hunit⟩ := Option.bind_eq_some_iff.1 hdocument
          rw [bracketDepth_of_read hread] at hbrackets
          exact .inr ⟨hpath, value, hunit, Nat.not_lt.1 hbrackets⟩

/-! ## written units -/

/-- **A written unit** is loaded when its tree is no deeper than the analysis accepts. -/
theorem load_write {path : String} {u : SourceUnit}
    (hpath : extension? path ≠ some notationExtension) (hdepth : u.tree.depth ≤ maxDepth)
    (layout : Layout) : load path (some (write layout (ofUnit u)).toUTF8) = .ok u := by
  have hread := read_write layout (ofUnit u) (hereditary_hasNaturals.ofUnit u)
  have hnesting : (ofUnit u).nesting ≤ maxBracketDepth := by
    have hbrackets := nesting_ofUnit_le u
    have hlevels := u.tree.height_le_depth_add_one
    rw [maxBracketDepth]
    rw [maxDepth] at *
    omega
  rw [load_of_read hpath hread (unit?_ofUnit u), if_pos hnesting]

/-- A unit whose texts have brackets, quotes, backslashes and controls in them. -/
def awkwardUnit : SourceUnit where
  name := "[\x7b\"\\"
  tree :=
    ⟨⟨"\\\"[", some "]\x7d", ⟨1, 4294967295⟩⟩,
      .leaf ⟨"\"\x7b\\", none, ⟨0, 0⟩⟩ (.node ⟨"\x00\n\x1f\x7f", none, ⟨7, 3⟩⟩ .nil .nil)⟩
  problems := [⟨⟨2, 1⟩, "\"]\x7d,\t"⟩]

theorem load_write_awkwardUnit :
    extension? "unit.json" ≠ some notationExtension ∧ awkwardUnit.tree.depth ≤ maxDepth ∧
      load "unit.json" (some (write .indented (ofUnit awkwardUnit)).toUTF8) = .ok awkwardUnit :=
  have hpath : extension? "unit.json" ≠ some notationExtension := by decide
  have hdepth : awkwardUnit.tree.depth ≤ maxDepth := by decide
  ⟨hpath, hdepth, load_write hpath hdepth .indented⟩

/-! ## depth -/

/-- **A unit that is loaded** has a tree that is accepted, or it comes from a document, its tree
is one level deeper, and no token stands below the nodes of that level.  Of the documents of
trees that are not accepted just those are loaded whose tree is one level too deep and whose
brackets nest as deeply as is allowed; all others are too deep. -/
theorem depth_of_load (path : String) :
    (∀ content u, load path content = .ok u →
      u.tree.depth ≤ maxDepth ∨
        (extension? path ≠ some notationExtension ∧ u.tree.depth = maxDepth + 1 ∧
          u.tree.height = maxDepth + 1)) ∧
    ∀ text value u, extension? path ≠ some notationExtension → Json.read text = some value →
      unit? value = some u → maxDepth < u.tree.depth →
      load path (some text.toUTF8)
        = if u.tree.depth = maxDepth + 1 ∧ value.nesting = maxBracketDepth then .ok u
          else .error (.tooDeep path) := by
  constructor
  · intro content u h
    rcases cases_of_load h with ⟨-, hdepth⟩ | ⟨hpath, value, hunit, hnesting⟩
    · exact .inl hdepth
    · have hlevels := height_of_unit? hunit
      have hnodes := u.tree.depth_le_height
      rw [maxBracketDepth] at hnesting
      by_cases hdepth : u.tree.depth ≤ maxDepth
      · exact .inl hdepth
      · exact .inr ⟨hpath, by omega, by omega⟩
  · intro text value u hpath hread hunit hdeep
    have hlevels := height_of_unit? hunit
    have hnodes := u.tree.depth_le_height
    have hexact : value.nesting ≤ maxBracketDepth ↔
        u.tree.depth = maxDepth + 1 ∧ value.nesting = maxBracketDepth := by
      rw [maxBracketDepth]
      omega
    rw [load_of_read hpath hread hunit]
    simp only [hexact]

/-- So many nodes, each the only child of the one before. -/
def chain : Nat → Forest
  | 0 => .nil
  | n + 1 => .node ⟨"expr", none, ⟨1, 0⟩⟩ (chain n) .nil

theorem depth_chain (n : Nat) : (chain n).depth = n := by
  induction n with
  | zero => rfl
  | succ n ih => rw [chain, Forest.depth, ih, Forest.depth, Nat.max_zero]

theorem height_chain (n : Nat) : (chain n).height = n := by
  induction n with
  | zero => rfl
  | succ n ih => rw [chain, Forest.height, ih, Forest.height, Nat.max_zero]

/-- A unit of one node more than is accepted, the last of them without tokens. -/
def deepUnit : SourceUnit := ⟨"deep", ⟨⟨"expr", none, ⟨1, 0⟩⟩, chain maxDepth⟩, []⟩

theorem depth_of_load_deepUnit :
    deepUnit.tree.depth = maxDepth + 1 ∧
      load "deep.json" (some (write .compact (ofUnit deepUnit)).toUTF8) = .ok deepUnit := by
  have hdepth : deepUnit.tree.depth = maxDepth + 1 := congrArg (· + 1) (depth_chain maxDepth)
  have hheight : deepUnit.tree.height = maxDepth + 1 := congrArg (· + 1) (height_chain maxDepth)
  have hread := read_write .compact (ofUnit deepUnit) (hereditary_hasNaturals.ofUnit deepUnit)
  have hunit := unit?_ofUnit deepUnit
  have hnesting : (ofUnit deepUnit).nesting = maxBracketDepth := by
    have hleast := height_of_unit? hunit
    have hmost := nesting_ofUnit_le deepUnit
    rw [hheight] at hleast hmost
    exact Nat.le_antisymm hmost hleast
  have hload := (depth_of_load "deep.json").2 _ _ deepUnit (by decide) hread hunit
    (hdepth ▸ Nat.lt_succ_self maxDepth)
  rw [if_pos ⟨hdepth, hnesting⟩] at hload
  exact ⟨hdepth, hload⟩

end QueryAudit.Document
