import QueryAudit.Proofs.Notation.Stage

/-!
# QueryAudit.Proofs.Notation.Failure

Why a text is not read.  If it cannot be cut into lexemes, the first quote that cannot be
read is to blame, whatever the lexemes in front of it are.  Otherwise it is the first lexeme
that the grammar does not accept, or the end of the text.

* `Accepted`, `Misplaced` — lexemes that a tree can begin with, and what is wrong with others;
* `readFrom_eq_error_iff` — why the lexemes of a text are no tree;
* `read_eq_error_iff` — why a text is no tree;
* `read_failures` — every failure with its place in the text.
-/

namespace QueryAudit.Notation

/-- The place that a failure names. -/
def ReadError.offset? : ReadError → Option Nat
  | .unterminatedText offset => some offset
  | .invalidPosition _ offset => some offset
  | .unexpected _ offset => some offset
  | .tooDeep offset => some offset
  | .unexpectedEnd => none
  | .rootNotNode => none

/-! ## lexemes that are accepted -/

/-- The lexemes of a tree as it is written, however deep it is. -/
def Writes (lexemes : List Lexeme) (t : Node) : Prop :=
  ∃ givens, Derives lexemes t.toForest givens ∧ t.toForest.positions = inherited ⟨1, 0⟩ givens

/-- Lexemes that a tree begins with, one that is not too deep; the last of them is not a field
label without its sign. -/
def Accepted (lexemes : List Lexeme) : Prop :=
  ∃ later t, later.head? ≠ some .equals ∧ Writes (lexemes ++ later) t ∧ t.depth ≤ maxDepth

/-- A lexeme at `offset` with a failure of its own behind lexemes that are accepted: one node
more than may be open, a header whose part behind its first `@` is no position, and a leaf in
the place of the root. -/
inductive Refused (before : List Lexeme) (offset : Nat) : Lexeme → ReadError → Prop
  | tooDeep : before.count .opening = before.count .closing + maxDepth →
      before.getLast? ≠ some .opening → Refused before offset .opening (.tooDeep offset)
  | invalidPosition {header spec : String} {kind : List Char} :
      before.getLast? = some .opening → header.toList = kind ++ '@' :: spec.toList →
      '@' ∉ kind → (∀ p, ¬ IsPosition spec.toList p) →
      Refused before offset (.atom header) (.invalidPosition spec offset)
  | rootNotNode {s : String} {given : Option Position} : .opening ∉ before →
      Refused before offset (.text s given) .rootNotNode

/-- Lexemes that are no tree, and the reason: a lexeme with a failure of its own, a lexeme that
no tree has there in front of the next one, or an end at which the root is missing or nodes
are open. -/
inductive Misplaced : List (Lexeme × Nat) → ReadError → Prop
  | refused {before after : List (Lexeme × Nat)} {found : Lexeme} {offset : Nat} {e : ReadError} :
      Accepted (before.map (·.1)) → Refused (before.map (·.1)) offset found e →
      Misplaced (before ++ (found, offset) :: after) e
  | unexpected {before after : List (Lexeme × Nat)} {found : Lexeme} {offset : Nat} :
      Accepted (before.map (·.1)) → ¬ Accepted (before.map (·.1) ++ [found]) →
      (∀ later t, later.head? = (after.map (·.1)).head? →
        ¬ Writes (before.map (·.1) ++ found :: later) t) →
      (∀ e, ¬ Refused (before.map (·.1)) offset found e) →
      Misplaced (before ++ (found, offset) :: after) (.unexpected found offset)
  | ended {lexemes : List (Lexeme × Nat)} : Accepted (lexemes.map (·.1)) →
      (.opening ∉ lexemes.map (·.1) ∨
        (lexemes.map (·.1)).count .closing < (lexemes.map (·.1)).count .opening) →
      Misplaced lexemes .unexpectedEnd

section

variable {lexemes later : List Lexeme} {t : Node} {b : Stage}

/-- A tree that is written is read, or it is too deep. -/
theorem Writes.go_eq (h : Writes lexemes t) : Stage.start.go (anywhere lexemes) = .ok t ∨
    maxDepth < t.depth ∧
      ∃ offset, Stage.start.go (anywhere lexemes) = .error (.tooDeep offset) := by
  obtain ⟨givens, hderives, hpositions⟩ := h
  rw [← map_fst_anywhere lexemes] at hderives
  exact readFrom_root_of_derives hderives hpositions

/-- What is read behind lexemes that are taken is written with them. -/
theorem Reaches.writes (h : Reaches .start lexemes b) (hread : b.go (anywhere later) = .ok t)
    (hproper : ∀ l ∈ lexemes ++ later, l.isProper = true) :
    Writes (lexemes ++ later) t ∧ t.depth ≤ maxDepth := by
  rw [← h.go_eq (map_fst_anywhere lexemes), ← anywhere_append] at hread
  have hfound : ∀ l ∈ anywhere (lexemes ++ later), l.1.isProper = true := by
    intro l hl
    obtain ⟨l', hl', rfl⟩ := List.mem_map.1 hl
    exact hproper l' hl'
  obtain ⟨givens, hderives, hdepth, hpositions⟩ := (readFrom_eq_ok_iff hfound).1 hread
  rw [map_fst_anywhere] at hderives
  exact ⟨⟨givens, hderives, hpositions⟩, hdepth⟩

/-- From every stage on a tree can be written. -/
theorem Reaches.exists_writes (h : Reaches .start lexemes b)
    (hproper : ∀ l ∈ lexemes, l.isProper = true) : ∃ later t, later.head? ≠ some .equals ∧
      Writes (lexemes ++ later) t ∧ t.depth ≤ maxDepth := by
  obtain ⟨later, t, hlater, hproper', hread⟩ := b.exists_go_eq_ok
  exact ⟨later, t, hlater, h.writes hread (List.forall_mem_append.2 ⟨hproper, hproper'⟩)⟩

/-- **Lexemes are accepted** exactly if they lead the reader to a stage. -/
theorem accepted_iff (hproper : ∀ l ∈ lexemes, l.isProper = true) :
    Accepted lexemes ↔ ∃ b, Reaches .start lexemes b := by
  constructor
  · rintro ⟨later, t, hlater, hwrites, hdepth⟩
    have hread := hwrites.go_eq.resolve_right fun hdeep => Nat.not_lt.2 hdepth hdeep.1
    obtain ⟨taken, rest, b, htaken, hreaches, hhalts⟩ := Stage.go_eq_iff.1 hread
    cases hhalts
    rw [List.append_nil] at htaken
    rw [htaken, map_fst_anywhere] at hreaches
    exact hreaches.of_append hlater
  · rintro ⟨b, hreaches⟩
    exact hreaches.exists_writes hproper

/-! ## lexemes that cannot stand -/

/-- What is stray in front of one lexeme is stray in front of any other but `=`. -/
theorem Stray.congr {found : Lexeme} {next next' : Option Lexeme} (h : Stray b found next)
    (hnext : next' = next ∨ next' ≠ some .equals) : Stray b found next' := by
  rcases hnext with rfl | hnext
  · exact h
  cases h with
  | atom _ => exact .atom fun _ => hnext
  | equals => exact .equals
  | closing hnone => exact .closing hnone
  | noHeader hfound => exact .noHeader hfound
  | trailing => exact .trailing

/-- No tree goes on with a stray lexeme. -/
theorem Stray.not_writes {found : Lexeme} (h : Stray b found later.head?)
    (hreaches : Reaches .start lexemes b) : ¬ Writes (lexemes ++ found :: later) t := by
  intro hwrites
  have hnext : (anywhere later).head?.map (·.1) = later.head? := by
    rw [← List.head?_map, map_fst_anywhere]
  have hgo : Stage.start.go (anywhere (lexemes ++ found :: later))
      = .error (.unexpected found 0) := by
    rw [anywhere_append, hreaches.go_eq (map_fst_anywhere lexemes), anywhere_cons]
    rw [← hnext] at h
    exact h.go_eq 0
  rcases hwrites.go_eq with hread | ⟨-, offset, htooDeep⟩
  · rw [hgo] at hread
    contradiction
  · rw [hgo] at htooDeep
    cases htooDeep

/-- A lexeme with a failure of its own stops the reader. -/
theorem Refused.halts {before : List Lexeme} {offset : Nat} {found : Lexeme} {e : ReadError}
    (h : Refused before offset found e) (hreaches : Reaches .start before b)
    (rest : List (Lexeme × Nat)) : Halts b ((found, offset) :: rest) (.error e) := by
  cases h with
  | tooDeep hcount hlast =>
      have hfull : b.depth = maxDepth := by
        have hdepth := hreaches.depth
        omega
      cases b with
      | between opened field position => exact .tooDeep hfull
      | behindOpening opened field position => exact absurd (hreaches.awaitsHeader.1 rfl) hlast
      | behindRoot root => contradiction
  | invalidPosition hlast hheader hkind hspec =>
      rw [← hreaches.awaitsHeader] at hlast
      cases b with
      | behindOpening opened field position =>
          exact .invalidPosition (readHeader_eq_error_iff.2 ⟨_, hheader, hkind, hspec⟩)
      | between | behindRoot => contradiction
  | rootNotNode hopening =>
      rw [← hreaches.beforeRoot] at hopening
      rcases b with ⟨_ | ⟨o, outer⟩, field, position⟩ | _ | _
      · exact .rootNotNode
      all_goals contradiction

/-- A stray lexeme is misplaced. -/
theorem Stray.misplaced {taken rest : List (Lexeme × Nat)} {found : Lexeme} {offset : Nat}
    (h : Stray b found (rest.head?.map (·.1))) (hreaches : Reaches .start (taken.map (·.1)) b)
    (haccepted : Accepted (taken.map (·.1))) :
    Misplaced (taken ++ (found, offset) :: rest) (.unexpected found offset) := by
  rw [← List.head?_map] at h
  refine .unexpected haccepted ?_ ?_ ?_
  · rintro ⟨later, t, hlater, hwrites, -⟩
    rw [List.append_assoc, List.singleton_append] at hwrites
    exact (h.congr (.inr hlater)).not_writes hreaches hwrites
  · intro later t hnext
    exact (h.congr (.inl hnext)).not_writes hreaches
  · intro e hrefused
    have hgo := (hrefused.halts hreaches rest).go_eq
    rw [List.head?_map] at h
    rw [h.go_eq] at hgo
    cases hgo
    cases hrefused

/-- The reader halts in front of a lexeme with a failure of its own, or of a stray one. -/
theorem Halts.refused_or_stray {before : List Lexeme} {found : Lexeme} {offset : Nat}
    {rest : List (Lexeme × Nat)} {result : Except ReadError Node}
    (h : Halts b ((found, offset) :: rest) result) (hreaches : Reaches .start before b) :
    (∃ e, result = .error e ∧ Refused before offset found e) ∨
      result = .error (.unexpected found offset) ∧ Stray b found (rest.head?.map (·.1)) := by
  cases h with
  | tooDeep hfull =>
      have hdepth := hreaches.depth
      rw [Stage.depth, hfull] at hdepth
      refine .inl ⟨_, rfl, .tooDeep hdepth ?_⟩
      rw [Ne, ← hreaches.awaitsHeader]
      exact Bool.false_ne_true
  | invalidPosition hheader =>
      obtain ⟨kind, hheader, hkind, hspec⟩ := readHeader_eq_error_iff.1 hheader
      exact .inl ⟨_, rfl, .invalidPosition (hreaches.awaitsHeader.1 rfl) hheader hkind hspec⟩
  | rootNotNode => exact .inl ⟨_, rfl, .rootNotNode (hreaches.beforeRoot.1 rfl)⟩
  | unexpected hstray => exact .inr ⟨rfl, hstray⟩

/-- The reader halts at the end when the root is missing or nodes are open. -/
theorem Reaches.ended_iff (h : Reaches .start lexemes b) : (∀ root, b ≠ .behindRoot root) ↔
    .opening ∉ lexemes ∨ lexemes.count .closing < lexemes.count .opening := by
  rw [← h.beforeRoot, h.depth]
  rcases b with ⟨_ | ⟨o, outer⟩, field, position⟩ | _ | root <;>
    simp [Stage.beforeRoot, Stage.depth]

theorem isProper_of_append {taken rest : List (Lexeme × Nat)}
    (hproper : ∀ l ∈ taken ++ rest, l.1.isProper = true) :
    ∀ l ∈ taken.map (·.1), l.isProper = true :=
  List.forall_mem_map.2 fun l hl => hproper l (List.mem_append_left _ hl)

/-- **Where the reader halts** something is misplaced. -/
theorem Halts.misplaced {taken rest : List (Lexeme × Nat)} {e : ReadError}
    (h : Halts b rest (.error e)) (hreaches : Reaches .start (taken.map (·.1)) b)
    (hproper : ∀ l ∈ taken ++ rest, l.1.isProper = true) : Misplaced (taken ++ rest) e := by
  have haccepted := (accepted_iff (isProper_of_append hproper)).2 ⟨b, hreaches⟩
  rcases rest with _ | ⟨⟨found, offset⟩, rest⟩
  · cases h with
    | ended hroot =>
        rw [List.append_nil]
        exact .ended haccepted (hreaches.ended_iff.1 hroot)
  · rcases h.refused_or_stray hreaches with ⟨e', he, hrefused⟩ | ⟨he, hstray⟩
    · cases he
      exact .refused haccepted hrefused
    · cases he
      exact hstray.misplaced hreaches haccepted

/-- **Where something is misplaced** the reader halts. -/
theorem Misplaced.exists_halts {found : List (Lexeme × Nat)} {e : ReadError}
    (h : Misplaced found e) (hproper : ∀ l ∈ found, l.1.isProper = true) :
    ∃ taken rest b, taken ++ rest = found ∧ Reaches .start (taken.map (·.1)) b ∧
      Halts b rest (.error e) := by
  have hreached : ∀ taken rest, taken ++ rest = found → Accepted (taken.map (·.1)) →
      ∃ b, Reaches .start (taken.map (·.1)) b := by
    rintro taken rest rfl haccepted
    exact (accepted_iff (isProper_of_append hproper)).1 haccepted
  cases h with
  | @refused before after found offset _ haccepted hrefused =>
      obtain ⟨b, hreaches⟩ := hreached before _ rfl haccepted
      exact ⟨before, _, b, rfl, hreaches, hrefused.halts hreaches after⟩
  | @unexpected before after found offset haccepted hfound hnext hrefused =>
      obtain ⟨b, hreaches⟩ := hreached before _ rfl haccepted
      refine ⟨before, _, b, rfl, hreaches, ?_⟩
      rcases b.halts_or_step ((found, offset) :: after) with
        ⟨result, hhalts⟩ | ⟨taken, rest, c, htaken, hstep⟩
      · rcases hhalts.refused_or_stray hreaches with ⟨e, -, hown⟩ | ⟨-, hstray⟩
        · exact absurd hown (hrefused e)
        · exact .unexpected hstray
      -- if it were taken, alone or with the next lexeme, a tree would go on with it
      have hlonger := hreaches.tail hstep
      have hlexemes : ∀ l ∈ before.map (·.1) ++ taken.map (·.1), l.isProper = true := by
        rw [← htaken, ← List.append_assoc] at hproper
        rw [← List.map_append]
        exact isProper_of_append hproper
      rcases taken with _ | ⟨first, _ | ⟨second, more⟩⟩
      · exact absurd rfl hstep.ne_nil
      · cases htaken
        exact absurd ((accepted_iff hlexemes).2 ⟨c, hlonger⟩) hfound
      · cases htaken
        obtain ⟨later, t, -, hwrites, -⟩ := hlonger.exists_writes hlexemes
        rw [List.append_assoc] at hwrites
        exact absurd hwrites (hnext _ t rfl)
  | ended haccepted hopen =>
      obtain ⟨b, hreaches⟩ := hreached found [] (List.append_nil _) haccepted
      exact ⟨found, [], b, List.append_nil _, hreaches, .ended (hreaches.ended_iff.2 hopen)⟩

/-- **Why lexemes are no tree**: the reader fails with what is misplaced among them. -/
theorem readFrom_eq_error_iff {found : List (Lexeme × Nat)} {e : ReadError}
    (hproper : ∀ l ∈ found, l.1.isProper = true) :
    readFrom [] none ⟨1, 0⟩ found = .error e ↔ Misplaced found e := by
  have hgo : readFrom [] none ⟨1, 0⟩ found = Stage.start.go found := by rw [Stage.start, Stage.go]
  rw [hgo]
  constructor
  · intro h
    obtain ⟨taken, rest, b, rfl, hreaches, hhalts⟩ := Stage.go_eq_iff.1 h
    exact hhalts.misplaced hreaches hproper
  · intro h
    exact Stage.go_eq_iff.2 (h.exists_halts hproper)

end

/-! ## places in a text -/

/-- A character boundary that is not the end of a text. -/
def Inside (s : String) (offset : Nat) : Prop :=
  String.Pos.Raw.IsValid s ⟨offset⟩ ∧ offset < s.utf8ByteSize

/-- The bytes in front of a character end inside the text. -/
theorem inside_byteLength {s : String} {front back : List Char} {c : Char}
    (hs : s.toList = front ++ c :: back) : Inside s (byteLength front) := by
  obtain rfl : s = String.ofList front ++ String.ofList (c :: back) := by
    rw [← String.ofList_append, ← hs, String.ofList_toList]
  rw [Inside, byteLength_eq_utf8ByteSize]
  constructor
  · exact String.Pos.Raw.isValid_rawEndPos.append_right _
  · have hpos := Char.utf8Size_pos c
    rw [String.utf8ByteSize_append, ← byteLength_eq_utf8ByteSize (c :: back), byteLength_cons]
    omega

section

variable {e : ReadError} {offset place : Nat}

/-- What cannot be read is blamed on its quote, or on the `@` behind a text. -/
theorem Unreadable.exists_place {rest : List Char} (h : Unreadable offset rest e)
    (hplace : e.offset? = some place) :
    ∃ front c back, rest = front ++ c :: back ∧ place = offset + byteLength front := by
  cases h with
  | @text cs _ =>
      cases hplace
      exact ⟨[], '"', cs, rfl, rfl⟩
  | @position raw text spec rest _ _ _ _ =>
      cases hplace
      exact ⟨'"' :: (raw ++ ['"']), '@', spec ++ rest, by simp, rfl⟩

/-- What is misplaced is blamed on one of the lexemes. -/
theorem Misplaced.exists_mem {found : List (Lexeme × Nat)} (h : Misplaced found e)
    (hplace : e.offset? = some place) : ∃ l, (l, place) ∈ found := by
  cases h with
  | @refused before after l offset _ _ hrefused =>
      refine ⟨l, List.mem_append_right _ ?_⟩
      cases hrefused <;> cases hplace
      all_goals exact List.mem_cons_self
  | @unexpected before after l offset =>
      cases hplace
      exact ⟨l, List.mem_append_right _ List.mem_cons_self⟩
  | ended => cases hplace

/-- A lexeme of a laid out text starts inside it. -/
theorem inside_of_mem_places {s : String} {ending : List Char} {chunks : List Chunk}
    (hlaid : Laid ending chunks) (htext : textOf ending chunks = s.toList) {l : Lexeme}
    (h : (l, place) ∈ places 0 chunks) : Inside s place := by
  obtain ⟨before, c, after, rfl, -, rfl⟩ := exists_of_mem_places h
  have hword : c.word ≠ [] := (hlaid.spells c (by simp)).ne_nil
  obtain ⟨d, word, hd⟩ := List.exists_cons_of_ne_nil hword
  rw [textOf_append_cons, hd, List.cons_append] at htext
  rw [Nat.zero_add]
  exact inside_byteLength htext.symm

end

/-- A text is not read because of the first thing in it that is no lexeme, else because of
what is misplaced among its lexemes. -/
theorem read_eq_error_iff (s : String) (e : ReadError) : read s = .error e ↔
    (∃ chunks gap rest, textOf (gap ++ rest) chunks = s.toList ∧
      Precedes (gap ++ rest) chunks ∧ Gap gap ∧
      Unreadable (byteLength (textOf gap chunks)) rest e) ∨
    ∃ ending chunks, Laid ending chunks ∧ textOf ending chunks = s.toList ∧
      Misplaced (places 0 chunks) e := by
  rw [← lex_eq_error_iff, read]
  cases hlex : lex s with
  | error e' =>
      simp only [Except.error.injEq]
      refine ⟨.inl, ?_⟩
      rintro (h | ⟨ending, chunks, hlaid, htext, -⟩)
      · exact h
      · rw [lex_eq_ok_iff.2 ⟨ending, chunks, hlaid, htext, rfl⟩] at hlex
        contradiction
  | ok found =>
      have hfound := readFrom_eq_error_iff (isProper_of_mem_lex hlex) (e := e)
      constructor
      · intro h
        obtain ⟨ending, chunks, hlaid, htext, rfl⟩ := lex_eq_ok_iff.1 hlex
        exact .inr ⟨ending, chunks, hlaid, htext, hfound.1 h⟩
      · rintro (h | ⟨ending, chunks, hlaid, htext, hmisplaced⟩)
        · contradiction
        · rw [lex_eq_ok_iff.2 ⟨ending, chunks, hlaid, htext, rfl⟩] at hlex
          cases hlex
          exact hfound.2 hmisplaced

/-- **Every failure has its place.**  A text that cannot be cut into lexemes fails with the
first quote that cannot be read, whatever else is wrong with it; any other text that is no
tree fails with what is misplaced among its lexemes; and the place that a failure names is
a character of the text. -/
theorem read_failures :
    (∀ (s : String) (e : ReadError), read s = .error e ↔
      (∃ chunks gap rest, textOf (gap ++ rest) chunks = s.toList ∧
        Precedes (gap ++ rest) chunks ∧ Gap gap ∧
        Unreadable (byteLength (textOf gap chunks)) rest e) ∨
      ∃ ending chunks, Laid ending chunks ∧ textOf ending chunks = s.toList ∧
        Misplaced (places 0 chunks) e) ∧
    ∀ (s : String) (e : ReadError) (offset : Nat), read s = .error e →
      e.offset? = some offset → Inside s offset := by
  refine ⟨read_eq_error_iff, ?_⟩
  intro s e offset herror hoffset
  rcases (read_eq_error_iff s e).1 herror with
    ⟨chunks, gap, rest, htext, -, -, hunreadable⟩ | ⟨ending, chunks, hlaid, htext, hmisplaced⟩
  · obtain ⟨front, c, back, rfl, rfl⟩ := hunreadable.exists_place hoffset
    have hchars : s.toList = (textOf gap chunks ++ front) ++ c :: back := by
      rw [← htext, textOf_append, List.append_assoc]
    rw [← byteLength_append]
    exact inside_byteLength hchars
  · obtain ⟨l, hl⟩ := hmisplaced.exists_mem hoffset
    exact inside_of_mem_places hlaid htext hl

/-- A closing bracket behind a comment with a character of two bytes. -/
def strayClosing : Chunk := ⟨[';', 'é', '\n'], [')'], .closing⟩

/-- The bracket is where the failure says: behind four bytes. -/
theorem read_strayClosing : read ";é\n)" = .error (.unexpected .closing 4) ∧
    (ReadError.unexpected .closing 4).offset? = some 4 ∧ Inside ";é\n)" 4 := by
  have hgap : Gap [';', 'é', '\n'] := Gap.comment (show '\n' ∉ ['é'] by decide) .nil
  have hlaid : Laid [] [strayClosing] := .cons hgap .closing trivial (.nil (.gap .nil))
  have hread : read ";é\n)" = .error (.unexpected .closing 4) := by
    rw [read, lex_eq_ok_iff.2 ⟨[], [strayClosing], hlaid, rfl, rfl⟩]
    rfl
  exact ⟨hread, rfl, read_failures.2 _ _ 4 hread rfl⟩

end QueryAudit.Notation
