import QueryAudit.Proofs.Notation.Grammar

/-!
# QueryAudit.Proofs.Notation.Stage

The reader as a machine.  Between two lexemes it stands at a stage: in front of an element,
in front of the header of a node, or behind the root.  It goes on from stage to stage until
it halts, with the tree or in front of a lexeme that it does not take.

* `Step`, `Reaches` — what the reader takes, and where that leads it;
* `Halts` — where it stops, and with which result;
* `Stage.go_eq_iff` — what is read from a stage on: lexemes that are taken, then a halt;
* `Stage.exists_go_eq_ok` — from every stage on a tree can still be read.
-/

namespace QueryAudit.Notation

/-- Where the reader stands between two lexemes. -/
inductive Stage where
  /-- In front of an element of the innermost open node, or of the root when none is open;
  the label of its field has been read if there is one. -/
  | between (opened : List OpenNode) (field : Option String) (position : Position)
  /-- Behind the opening bracket of a node and in front of its header. -/
  | behindOpening (opened : List OpenNode) (field : Option String) (position : Position)
  /-- Behind the closing bracket of the root. -/
  | behindRoot (root : Node)

namespace Stage

/-- In front of the root. -/
def start : Stage := .between [] none ⟨1, 0⟩

/-- Read on. -/
def go : Stage → List (Lexeme × Nat) → Except ReadError Node
  | between opened field position, lexemes => readFrom opened field position lexemes
  | behindOpening _ _ _, [] => .error .unexpectedEnd
  | behindOpening opened field position, (.atom header, offset) :: rest =>
    match readHeader position header with
    | .error spec => .error (.invalidPosition spec offset)
    | .ok (kind, position) => readFrom (⟨⟨kind, field, position⟩, []⟩ :: opened) none position rest
  | behindOpening _ _ _, (found, offset) :: _ => .error (.unexpected found offset)
  | behindRoot root, [] => .ok root
  | behindRoot _, (found, offset) :: _ => .error (.unexpected found offset)

/-- How many nodes are open. -/
def depth : Stage → Nat
  | between opened _ _ => opened.length
  | behindOpening opened _ _ => opened.length + 1
  | behindRoot _ => 0

/-- Whether a header comes next. -/
def awaitsHeader : Stage → Bool
  | behindOpening _ _ _ => true
  | _ => false

/-- Whether the root has not been opened. -/
def beforeRoot : Stage → Bool
  | between [] _ _ => true
  | _ => false

end Stage

/-! ## what the reader takes -/

/-- The lexemes that the reader takes at once: a field label with its sign, else one. -/
inductive Step : Stage → List Lexeme → Stage → Prop
  | label {opened : List OpenNode} {name : String} {position : Position} :
      Step (.between opened none position) [.atom name, .equals]
        (.between opened (some name) position)
  | text {parent : OpenNode} {outer : List OpenNode} {field : Option String}
      {position : Position} {s : String} {given : Option Position} :
      Step (.between (parent :: outer) field position) [.text s given]
        (.between (parent.push (.leaf ⟨s, field, given.getD position⟩) :: outer) none
          (given.getD position))
  | opening {opened : List OpenNode} {field : Option String} {position : Position} :
      opened.length ≠ maxDepth →
      Step (.between opened field position) [.opening] (.behindOpening opened field position)
  | header {opened : List OpenNode} {field : Option String} {position position' : Position}
      {header kind : String} : readHeader position header = .ok (kind, position') →
      Step (.behindOpening opened field position) [.atom header]
        (.between (⟨⟨kind, field, position'⟩, []⟩ :: opened) none position')
  | closing {node parent : OpenNode} {outer : List OpenNode} {position : Position} :
      Step (.between (node :: parent :: outer) none position) [.closing]
        (.between (parent.push (.node node.close) :: outer) none position)
  | root {root : OpenNode} {position : Position} :
      Step (.between [root] none position) [.closing] (.behindRoot root.close)

/-- Some lexemes lead the reader from one stage to another. -/
inductive Reaches (a : Stage) : List Lexeme → Stage → Prop
  | refl : Reaches a [] a
  | tail {lexemes word : List Lexeme} {b c : Stage} : Reaches a lexemes b → Step b word c →
      Reaches a (lexemes ++ word) c

section

variable {a b c : Stage} {lexemes word : List Lexeme}

theorem Reaches.head (hstep : Step a word b) (h : Reaches b lexemes c) :
    Reaches a (word ++ lexemes) c := by
  induction h with
  | refl =>
      rw [List.append_nil]
      exact .tail .refl hstep
  | tail _ hlast ih =>
      rw [← List.append_assoc]
      exact .tail ih hlast

theorem readFrom_cons_opening {opened : List OpenNode} (hlength : opened.length ≠ maxDepth)
    (field : Option String) (position : Position) (offset : Nat) (rest : List (Lexeme × Nat)) :
    readFrom opened field position ((.opening, offset) :: rest)
      = (Stage.behindOpening opened field position).go rest := by
  rw [readFrom.eq_def]
  refine (if_neg hlength).trans ?_
  rcases rest with _ | ⟨⟨found, place⟩, rest⟩
  · rfl
  · cases found <;> rfl

theorem readFrom_cons_closing_root (root : OpenNode) (position : Position) (offset : Nat)
    (rest : List (Lexeme × Nat)) : readFrom [root] none position ((.closing, offset) :: rest)
      = (Stage.behindRoot root.close).go rest := by
  cases rest <;> rw [readFrom, Stage.go]

theorem Step.go_eq (h : Step a word b) {taken : List (Lexeme × Nat)}
    (htaken : taken.map (·.1) = word) (rest : List (Lexeme × Nat)) :
    a.go (taken ++ rest) = b.go rest := by
  cases h with
  | label =>
      obtain ⟨offset, tail, rfl, htail⟩ := eq_cons_of_map htaken
      obtain ⟨place, tail', rfl, htail'⟩ := eq_cons_of_map htail
      cases List.map_eq_nil_iff.1 htail'
      rw [Stage.go, List.cons_append, List.cons_append, List.nil_append, Stage.go, readFrom]
  | text =>
      obtain ⟨⟨_, offset⟩, rfl, rfl⟩ := List.map_eq_singleton_iff.1 htaken
      rw [Stage.go, List.singleton_append, readFrom, Stage.go]
  | opening hlength =>
      obtain ⟨⟨_, offset⟩, rfl, rfl⟩ := List.map_eq_singleton_iff.1 htaken
      rw [Stage.go, List.singleton_append, readFrom_cons_opening hlength]
  | header hheader =>
      obtain ⟨⟨_, offset⟩, rfl, rfl⟩ := List.map_eq_singleton_iff.1 htaken
      rw [List.singleton_append, Stage.go, Stage.go]
      simp only [hheader]
  | closing =>
      obtain ⟨⟨_, offset⟩, rfl, rfl⟩ := List.map_eq_singleton_iff.1 htaken
      rw [Stage.go, List.singleton_append, readFrom, Stage.go]
  | root =>
      obtain ⟨⟨_, offset⟩, rfl, rfl⟩ := List.map_eq_singleton_iff.1 htaken
      rw [Stage.go, List.singleton_append, readFrom_cons_closing_root]

/-- **Lexemes that are taken** leave the rest to be read. -/
theorem Reaches.go_eq (h : Reaches a lexemes b) {taken : List (Lexeme × Nat)}
    (htaken : taken.map (·.1) = lexemes) (rest : List (Lexeme × Nat)) :
    a.go (taken ++ rest) = b.go rest := by
  induction h generalizing taken rest with
  | refl =>
      cases List.map_eq_nil_iff.1 htaken
      rfl
  | tail _ hstep ih =>
      obtain ⟨first, last, rfl, hfirst, hlast⟩ := List.map_eq_append_iff.1 htaken
      rw [List.append_assoc, ih hfirst, hstep.go_eq hlast]

theorem Step.eq_nil_or_eq_nil {first last : List Lexeme} (h : Step a (first ++ last) b)
    (hlast : last.head? ≠ some .equals) : first = [] ∨ last = [] := by
  generalize hword : first ++ last = word at h
  rcases first with _ | ⟨l, _ | ⟨l', first⟩⟩
  · exact .inl rfl
  · cases h with
    | label =>
        cases hword
        exact absurd rfl hlast
    | _ =>
        cases hword
        exact .inr rfl
  · cases h with
    | label =>
        rw [List.cons_append, List.cons_append, List.cons.injEq, List.cons.injEq] at hword
        exact .inr (List.append_eq_nil_iff.1 hword.2.2).2
    | _ => simp at hword

/-- There is a stage in front of each lexeme but the sign behind a field label. -/
theorem Reaches.of_append {before later : List Lexeme} (h : Reaches a (before ++ later) b)
    (hlater : later.head? ≠ some .equals) : ∃ c, Reaches a before c := by
  generalize hwhole : before ++ later = whole at h
  induction h generalizing later with
  | refl =>
      cases (List.append_eq_nil_iff.1 hwhole).1
      exact ⟨a, .refl⟩
  | @tail lexemes word b c hreaches hstep ih =>
      -- the cut lies in front of the last word, or inside it
      rcases List.append_eq_append_iff.1 hwhole with
        ⟨between, rfl, rfl⟩ | ⟨first, rfl, rfl⟩
      · have hbetween : between.head? ≠ some .equals := by
          cases between with
          | nil => simp
          | cons l between => exact hlater
        exact ih hbetween rfl
      · rcases hstep.eq_nil_or_eq_nil hlater with rfl | rfl
        · exact ⟨b, by rwa [List.append_nil]⟩
        · rw [List.append_nil] at hstep
          exact ⟨c, .tail hreaches hstep⟩

/-! ### what the lexemes tell about the stage -/

theorem Step.depth (h : Step a word b) :
    word.count .opening + a.depth = word.count .closing + b.depth := by
  cases h <;> simp [Stage.depth] <;> omega

/-- The nodes that are open are those opened and not closed. -/
theorem Reaches.depth (h : Reaches .start lexemes b) :
    lexemes.count .opening = lexemes.count .closing + b.depth := by
  induction h with
  | refl => rfl
  | tail _ hstep ih =>
      have hdepth := hstep.depth
      rw [List.count_append, List.count_append]
      omega

theorem Step.awaitsHeader (h : Step a word b) :
    b.awaitsHeader = true ↔ word.getLast? = some .opening := by
  cases h <;> simp [Stage.awaitsHeader]

theorem Step.ne_nil (h : Step a word b) : word ≠ [] := by
  cases h <;> simp

/-- A header comes next exactly behind an opening bracket. -/
theorem Reaches.awaitsHeader (h : Reaches .start lexemes b) :
    b.awaitsHeader = true ↔ lexemes.getLast? = some .opening := by
  cases h with
  | refl => simp [Stage.start, Stage.awaitsHeader]
  | tail _ hstep =>
      rw [hstep.awaitsHeader, List.getLast?_append, List.getLast?_eq_some_getLast hstep.ne_nil,
        Option.some_or]

theorem Step.beforeRoot (h : Step a word b) :
    b.beforeRoot = true ↔ a.beforeRoot = true ∧ .opening ∉ word := by
  cases h with
  | @label opened name position => cases opened <;> simp [Stage.beforeRoot]
  | _ => simp [Stage.beforeRoot]

/-- The root comes next as long as there is no opening bracket. -/
theorem Reaches.beforeRoot (h : Reaches .start lexemes b) :
    b.beforeRoot = true ↔ .opening ∉ lexemes := by
  induction h with
  | refl => simp [Stage.start, Stage.beforeRoot]
  | tail _ hstep ih => rw [hstep.beforeRoot, ih, List.mem_append, not_or]

end

/-! ## where the reader halts -/

/-- A lexeme that cannot stand at a stage, in front of the next one or of the end. -/
inductive Stray : Stage → Lexeme → Option Lexeme → Prop
  | atom {opened : List OpenNode} {field : Option String} {position : Position} {name : String}
      {next : Option Lexeme} : (field = none → next ≠ some .equals) →
      Stray (.between opened field position) (.atom name) next
  | equals {opened : List OpenNode} {field : Option String} {position : Position}
      {next : Option Lexeme} : Stray (.between opened field position) .equals next
  | closing {opened : List OpenNode} {field : Option String} {position : Position}
      {next : Option Lexeme} : (field = none → opened = []) →
      Stray (.between opened field position) .closing next
  | noHeader {opened : List OpenNode} {field : Option String} {position : Position}
      {found : Lexeme} {next : Option Lexeme} : (∀ header, found ≠ .atom header) →
      Stray (.behindOpening opened field position) found next
  | trailing {root : Node} {found : Lexeme} {next : Option Lexeme} :
      Stray (.behindRoot root) found next

/-- Nothing more is taken at a stage, and this is the result. -/
inductive Halts : Stage → List (Lexeme × Nat) → Except ReadError Node → Prop
  | finished {root : Node} : Halts (.behindRoot root) [] (.ok root)
  | ended {a : Stage} : (∀ root, a ≠ .behindRoot root) → Halts a [] (.error .unexpectedEnd)
  | tooDeep {opened : List OpenNode} {field : Option String} {position : Position}
      {offset : Nat} {rest : List (Lexeme × Nat)} : opened.length = maxDepth →
      Halts (.between opened field position) ((.opening, offset) :: rest)
        (.error (.tooDeep offset))
  | invalidPosition {opened : List OpenNode} {field : Option String} {position : Position}
      {header spec : String} {offset : Nat} {rest : List (Lexeme × Nat)} :
      readHeader position header = .error spec →
      Halts (.behindOpening opened field position) ((.atom header, offset) :: rest)
        (.error (.invalidPosition spec offset))
  | rootNotNode {field : Option String} {position : Position} {s : String}
      {given : Option Position} {offset : Nat} {rest : List (Lexeme × Nat)} :
      Halts (.between [] field position) ((.text s given, offset) :: rest) (.error .rootNotNode)
  | unexpected {a : Stage} {found : Lexeme} {offset : Nat} {rest : List (Lexeme × Nat)} :
      Stray a found (rest.head?.map (·.1)) →
      Halts a ((found, offset) :: rest) (.error (.unexpected found offset))

theorem Stray.go_eq {a : Stage} {found : Lexeme} {rest : List (Lexeme × Nat)}
    (h : Stray a found (rest.head?.map (·.1))) (offset : Nat) :
    a.go ((found, offset) :: rest) = .error (.unexpected found offset) := by
  generalize hnext : rest.head?.map (·.1) = next at h
  cases h with
  | atom hnone =>
      rw [Stage.go, readFrom]
      intro place tail hfield hrest
      cases hrest
      exact hnone hfield hnext.symm
  | equals => rw [Stage.go, readFrom]
  | closing hnone =>
      rw [Stage.go, readFrom]
      · intro node parent outer hfield hopened
        rw [hnone hfield] at hopened
        contradiction
      · intro root hfield hopened
        rw [hnone hfield] at hopened
        contradiction
  | noHeader hfound =>
      rw [Stage.go]
      intro header hheader
      exact hfound header hheader
  | trailing => rfl

/-- **Where the reader halts** it gives this result. -/
theorem Halts.go_eq {a : Stage} {lexemes : List (Lexeme × Nat)}
    {result : Except ReadError Node} (h : Halts a lexemes result) : a.go lexemes = result := by
  cases h with
  | finished => rfl
  | ended hroot =>
      cases a with
      | between opened field position => rw [Stage.go, readFrom]
      | behindOpening opened field position => rw [Stage.go]
      | behindRoot root => exact absurd rfl (hroot root)
  | tooDeep hfull =>
      rw [Stage.go, readFrom.eq_def]
      exact if_pos hfull
  | invalidPosition hheader =>
      rw [Stage.go]
      simp only [hheader]
  | rootNotNode => rw [Stage.go, readFrom]
  | unexpected hstray => exact hstray.go_eq _

/-! ## what is read from a stage on -/

namespace Stage

/-- **Progress**: at every stage the reader halts or takes the lexemes in front of it. -/
theorem halts_or_step (a : Stage) (lexemes : List (Lexeme × Nat)) :
    (∃ result, Halts a lexemes result) ∨ ∃ taken rest b, taken ++ rest = lexemes ∧
      Step a (taken.map (·.1)) b := by
  rcases lexemes with _ | ⟨⟨found, offset⟩, rest⟩
  · cases a with
    | behindRoot root => exact .inl ⟨_, .finished⟩
    | between | behindOpening => exact .inl ⟨_, .ended (by simp)⟩
  cases a with
  | behindRoot root => exact .inl ⟨_, .unexpected .trailing⟩
  | behindOpening opened field position =>
      cases found with
      | atom header =>
          cases hheader : readHeader position header with
          | error spec => exact .inl ⟨_, .invalidPosition hheader⟩
          | ok given => exact .inr ⟨[_], rest, _, rfl, .header hheader⟩
      | opening | closing | equals | text => exact .inl ⟨_, .unexpected (.noHeader (by simp))⟩
  | between opened field position =>
      cases found with
      | opening =>
          by_cases hfull : opened.length = maxDepth
          · exact .inl ⟨_, .tooDeep hfull⟩
          · exact .inr ⟨[_], rest, _, rfl, .opening hfull⟩
      | equals => exact .inl ⟨_, .unexpected .equals⟩
      | text s given =>
          cases opened with
          | nil => exact .inl ⟨_, .rootNotNode⟩
          | cons parent outer => exact .inr ⟨[_], rest, _, rfl, .text⟩
      | closing =>
          rcases field with _ | field
          · rcases opened with _ | ⟨node, _ | ⟨parent, outer⟩⟩
            · exact .inl ⟨_, .unexpected (.closing fun _ => rfl)⟩
            · exact .inr ⟨[_], rest, _, rfl, .root⟩
            · exact .inr ⟨[_], rest, _, rfl, .closing⟩
          · exact .inl ⟨_, .unexpected (.closing (by simp))⟩
      | atom name =>
          by_cases hlabel : field = none ∧ rest.head?.map (·.1) = some .equals
          · obtain ⟨rfl, hnext⟩ := hlabel
            obtain ⟨⟨_, place⟩, hhead, rfl⟩ := Option.map_eq_some_iff.1 hnext
            obtain ⟨tail, rfl⟩ := List.head?_eq_some_iff.1 hhead
            exact .inr ⟨[_, _], tail, _, rfl, .label⟩
          · exact .inl ⟨_, .unexpected (.atom fun hfield hnext => hlabel ⟨hfield, hnext⟩)⟩

/-- The reader takes what it can, and halts. -/
theorem exists_reaches (a : Stage) (lexemes : List (Lexeme × Nat)) :
    ∃ taken rest b result, taken ++ rest = lexemes ∧ Reaches a (taken.map (·.1)) b ∧
      Halts b rest result := by
  rcases a.halts_or_step lexemes with ⟨result, hhalts⟩ | ⟨taken, behind, b, htaken, hstep⟩
  · exact ⟨[], lexemes, a, result, rfl, .refl, hhalts⟩
  · have hlength : behind.length < lexemes.length := by
      have hne : taken ≠ [] := fun hnil => hstep.ne_nil (List.map_eq_nil_iff.2 hnil)
      have hpos := List.length_pos_iff.2 hne
      rw [← htaken, List.length_append]
      omega
    obtain ⟨later, rest, c, result, rfl, hreaches, hhalts⟩ := b.exists_reaches behind
    refine ⟨taken ++ later, rest, c, result, ?_, ?_, hhalts⟩
    · rw [List.append_assoc, htaken]
    · rw [List.map_append]
      exact hreaches.head hstep
termination_by lexemes.length

/-- **Reading on** from a stage: some lexemes are taken, and there the reader halts with
the result. -/
theorem go_eq_iff {a : Stage} {lexemes : List (Lexeme × Nat)} {result : Except ReadError Node} :
    a.go lexemes = result ↔ ∃ taken rest b, taken ++ rest = lexemes ∧
      Reaches a (taken.map (·.1)) b ∧ Halts b rest result := by
  constructor
  · rintro rfl
    obtain ⟨taken, rest, b, result, rfl, hreaches, hhalts⟩ := a.exists_reaches lexemes
    refine ⟨taken, rest, b, rfl, hreaches, ?_⟩
    rwa [hreaches.go_eq rfl, hhalts.go_eq]
  · rintro ⟨taken, rest, b, rfl, hreaches, hhalts⟩
    rw [hreaches.go_eq rfl, hhalts.go_eq]

end Stage

/-! ## a tree can still be read -/

/-- Lexemes at a place that does not matter. -/
def anywhere (lexemes : List Lexeme) : List (Lexeme × Nat) := lexemes.map fun l => (l, 0)

@[simp] theorem map_fst_anywhere (lexemes : List Lexeme) :
    (anywhere lexemes).map (·.1) = lexemes := by
  rw [anywhere, List.map_map]
  exact List.map_id _

theorem anywhere_cons (l : Lexeme) (lexemes : List Lexeme) :
    anywhere (l :: lexemes) = (l, 0) :: anywhere lexemes := rfl

theorem anywhere_append (lexemes later : List Lexeme) :
    anywhere (lexemes ++ later) = anywhere lexemes ++ anywhere later :=
  List.map_append

/-- The brackets that close so many nodes. -/
def closings (n : Nat) : List Lexeme := List.replicate n .closing

theorem isProper_of_mem_closings (n : Nat) : ∀ l ∈ closings n, l.isProper = true := by
  intro l hl
  rw [List.eq_of_mem_replicate hl]
  rfl

theorem exists_readFrom_closings (o : OpenNode) (outer : List OpenNode) (position : Position) :
    ∃ t, readFrom (o :: outer) none position (anywhere (closings (outer.length + 1))) = .ok t := by
  induction outer generalizing o with
  | nil => exact ⟨o.close, rfl⟩
  | cons parent outer ih =>
      rw [List.length_cons, closings, List.replicate_succ, anywhere_cons, readFrom]
      exact ih _

/-- **From every stage on** a tree can be read. -/
theorem Stage.exists_go_eq_ok (a : Stage) : ∃ later t, later.head? ≠ some .equals ∧
    (∀ l ∈ later, l.isProper = true) ∧ a.go (anywhere later) = .ok t := by
  have hheader : ∀ position, readHeader position "a" = .ok ("a", position) :=
    fun _ => readHeader_of_not_mem (by decide)
  have hname : (Lexeme.atom "a").isProper = true := by decide
  cases a with
  | behindRoot root => exact ⟨[], root, by simp, by simp, rfl⟩
  | behindOpening opened field position =>
      obtain ⟨t, hread⟩ :=
        exists_readFrom_closings ⟨⟨"a", field, position⟩, []⟩ opened position
      refine ⟨.atom "a" :: closings (opened.length + 1), t, by simp, ?_, ?_⟩
      · exact List.forall_mem_cons.2 ⟨hname, isProper_of_mem_closings _⟩
      · rw [anywhere_cons, go]
        simp only [hheader, hread]
  | between opened field position =>
      cases opened with
      | nil =>
          refine ⟨[.opening, .atom "a", .closing], ⟨⟨"a", field, position⟩, .nil⟩, by simp, ?_, ?_⟩
          · simpa [Lexeme.isProper] using hname
          · rw [anywhere_cons, go, readFrom_cons_opening (by decide), anywhere_cons, go]
            simp only [hheader]
            rfl
      | cons parent outer =>
          obtain ⟨t, hread⟩ := exists_readFrom_closings
            (parent.push (.leaf ⟨"", field, position⟩)) outer position
          refine ⟨.text "" none :: closings (outer.length + 1), t, by simp, ?_, ?_⟩
          · exact List.forall_mem_cons.2 ⟨rfl, isProper_of_mem_closings _⟩
          · rw [anywhere_cons, go, readFrom]
            exact hread

end QueryAudit.Notation
