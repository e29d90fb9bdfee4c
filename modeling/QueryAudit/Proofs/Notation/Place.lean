import QueryAudit.Proofs.Notation.Layout

/-!
# QueryAudit.Proofs.Notation.Place

Where the parts of a text stand.  An offset is the number of bytes in front of a place.
Every text is cut into chunks up to its end, or up to the first quote whose text or
position cannot be read.

* `place_of_scan` — scanning goes on behind the bytes that it uses up;
* `exists_precedes` — every text is cut into chunks as far as it can be read;
* `lex_eq_ok_iff`, `lex_eq_error_iff` — the lexemes of a text with their places, or the
  first thing in it that is no lexeme.
-/

namespace QueryAudit.Notation

/-! ## bytes -/

@[simp] theorem byteLength_nil : byteLength [] = 0 := rfl

/-- Counting on from `n` bytes. -/
theorem foldl_utf8Size (n : Nat) (cs : List Char) :
    cs.foldl (fun n c => n + c.utf8Size) n = n + byteLength cs := by
  induction cs generalizing n with
  | nil => rfl
  | cons c cs ih =>
      rw [byteLength, List.foldl_cons, List.foldl_cons, ih, ih (0 + _), Nat.zero_add,
        Nat.add_assoc]

@[simp] theorem byteLength_cons (c : Char) (cs : List Char) :
    byteLength (c :: cs) = c.utf8Size + byteLength cs := by
  rw [byteLength, List.foldl_cons, foldl_utf8Size, Nat.zero_add]

@[simp] theorem byteLength_append (cs cs' : List Char) :
    byteLength (cs ++ cs') = byteLength cs + byteLength cs' := by
  rw [byteLength, List.foldl_append, foldl_utf8Size, ← byteLength]

/-- The bytes of a text. -/
theorem byteLength_eq_utf8ByteSize (cs : List Char) :
    byteLength cs = (String.ofList cs).utf8ByteSize := by
  induction cs with
  | nil => rfl
  | cons c cs ih =>
      rw [byteLength_cons, ih, String.ofList_cons, String.utf8ByteSize_append,
        String.utf8ByteSize_singleton]

/-! ## scanning -/

section

variable {offset place : Nat} {c : Char} {cs rest : List Char}

theorem place_of_scanText {seen : List Char} {text : String}
    (h : scanText offset seen cs = some (text, place, rest)) :
    place + byteLength rest = offset + byteLength cs := by
  have hquote : '"'.utf8Size = 1 := rfl
  have hbackslash : '\\'.utf8Size = 1 := rfl
  fun_induction scanText offset seen cs with
  | case1 => contradiction
  | case2 offset seen =>
      cases h
      rw [byteLength_cons, hquote]
      omega
  | case3 => contradiction
  | case4 offset seen e cs _ ih =>
      have := ih h
      rw [byteLength_cons, byteLength_cons, hbackslash]
      omega
  | case5 offset seen c cs _ _ ih =>
      have := ih h
      rw [byteLength_cons]
      omega

theorem place_of_scanPosition {position : Option Position}
    (h : scanPosition offset cs = .ok (position, place, rest)) :
    place + byteLength rest = offset + byteLength cs := by
  have hat : '@'.utf8Size = 1 := rfl
  unfold scanPosition at h
  split at h
  · next tail =>
    dsimp only at h
    split at h
    · contradiction
    · cases h
      have hspan := congrArg byteLength
        (List.takeWhile_append_dropWhile (p := isPositionChar) (l := tail))
      rw [byteLength_append] at hspan
      rw [byteLength_cons, hat]
      omega
  · cases h
    rfl

theorem place_of_sign {sign : Char} (hsize : sign.utf8Size = 1) (hc : c = sign) :
    offset + 1 + byteLength cs = offset + (c.utf8Size + byteLength cs) := by
  rw [hc, hsize]
  omega

/-- **Scanning** goes on behind the bytes that it uses up. -/
theorem place_of_scan {found : Option Lexeme} (h : scan offset c cs = .ok (found, place, rest)) :
    place + byteLength rest = offset + byteLength (c :: cs) := by
  have hcomment := congrArg byteLength
    (List.takeWhile_append_dropWhile (p := (· != '\n')) (l := cs))
  have hname := congrArg byteLength
    (List.takeWhile_append_dropWhile (p := (!isDelimiter ·)) (l := cs))
  rw [byteLength_append] at hcomment hname
  rw [byteLength_cons]
  unfold scan at h
  split at h
  · cases h
    omega
  split at h
  · next hc =>
    cases h
    rw [hc, show ';'.utf8Size = 1 from rfl]
    omega
  split at h
  · next hc =>
    cases h
    exact place_of_sign rfl hc
  split at h
  · next hc =>
    cases h
    exact place_of_sign rfl hc
  split at h
  · next hc =>
    cases h
    exact place_of_sign rfl hc
  split at h
  · next hc =>
    split at h
    · contradiction
    · next htext =>
      split at h
      · contradiction
      · next hposition =>
        cases h
        rw [place_of_scanPosition hposition, place_of_scanText htext, hc,
          show '"'.utf8Size = 1 from rfl]
        omega
  cases h
  omega

/-! ## lexemes and gaps in front of a rest -/

/-- **A lexeme that is written** is found where it starts. -/
theorem lexFrom_of_spells {word : List Char} {lexeme : Lexeme} (hword : Spells word lexeme)
    (hends : lexeme.EndsBefore rest) (offset : Nat) (seen : List (Lexeme × Nat)) :
    lexFrom offset seen (word ++ rest)
      = lexFrom (offset + byteLength word) ((lexeme, offset) :: seen) rest := by
  obtain ⟨c, cs, hchars, hscan⟩ := exists_scan_of_spells hword hends
  obtain ⟨place, hplace⟩ := hscan offset
  have hbytes := place_of_scan hplace
  rw [← hchars, byteLength_append] at hbytes
  have hsame : place = offset + byteLength word := by omega
  rw [hchars, lexFrom_of_scan_some hplace, hsame]

theorem lexFrom_blank (hc : isBlank c = true) (offset : Nat) (seen : List (Lexeme × Nat))
    (cs : List Char) : lexFrom offset seen (c :: cs) = lexFrom (offset + c.utf8Size) seen cs :=
  lexFrom_of_scan_none (by rw [scan, if_pos hc]) seen

theorem lexFrom_comment {line : List Char} (hline : '\n' ∉ line)
    (hrest : ∀ c ∈ rest.head?, c = '\n') (offset : Nat) (seen : List (Lexeme × Nat)) :
    lexFrom offset seen (';' :: (line ++ rest))
      = lexFrom (offset + 1 + byteLength line) seen rest := by
  obtain ⟨htake, hdrop⟩ := span_comment hline hrest
  exact lexFrom_of_scan_none (by rw [scan, if_neg (by decide), if_pos rfl, htake, hdrop]) seen

/-- A gap is passed over. -/
theorem lexFrom_gap {gap : List Char} (hgap : Gap gap) (offset : Nat) (seen : List (Lexeme × Nat))
    (cs : List Char) :
    lexFrom offset seen (gap ++ cs) = lexFrom (offset + byteLength gap) seen cs := by
  induction hgap generalizing offset with
  | nil => rfl
  | @blank c gap hc _ ih =>
      rw [List.cons_append, lexFrom_blank hc, ih, byteLength_cons, Nat.add_assoc]
  | @comment line gap hline _ ih =>
      have hsemicolon : ';'.utf8Size = 1 := rfl
      rw [List.cons_append, List.append_assoc, List.cons_append, lexFrom_comment hline (by simp),
        lexFrom_blank (by decide), ih, byteLength_cons, byteLength_append, byteLength_cons,
        hsemicolon]
      simp only [Nat.add_assoc]

/-- Nothing is left to read: the text is over, or all that is left of it is a comment. -/
inductive Finished : List Char → Prop
  | nil : Finished []
  | comment {line : List Char} : '\n' ∉ line → Finished (';' :: line)

theorem lexFrom_finished (h : Finished rest) (offset : Nat) (seen : List (Lexeme × Nat)) :
    lexFrom offset seen rest = .ok seen.reverse := by
  cases h with
  | nil => rw [lexFrom]
  | @comment line hline =>
      have hcomment := @lexFrom_comment [] line hline (by simp) offset seen
      rw [List.append_nil] at hcomment
      rw [hcomment, lexFrom]

/-- An ending is a gap behind which nothing is left to read. -/
theorem ending_iff {ending : List Char} :
    Ending ending ↔ ∃ gap rest, gap ++ rest = ending ∧ Gap gap ∧ Finished rest := by
  constructor
  · rintro (hgap | ⟨hgap, hline⟩)
    · exact ⟨_, [], List.append_nil _, hgap, .nil⟩
    · exact ⟨_, _, rfl, hgap, .comment hline⟩
  · rintro ⟨gap, rest, rfl, hgap, hnil | hline⟩
    · rw [List.append_nil]
      exact .gap hgap
    · exact .comment hgap hline

end

/-! ## chunks in front of a rest -/

/-- Chunks that are laid out in front of a rest, whatever the rest is. -/
inductive Precedes (rest : List Char) : List Chunk → Prop
  | nil : Precedes rest []
  | cons {c : Chunk} {chunks : List Chunk} : Gap c.gap → Spells c.word c.lexeme →
      c.lexeme.EndsBefore (textOf rest chunks) → Precedes rest chunks → Precedes rest (c :: chunks)

/-- The lexemes of chunks, each with the place where it starts. -/
def places (offset : Nat) : List Chunk → List (Lexeme × Nat)
  | [] => []
  | c :: chunks =>
    (c.lexeme, offset + byteLength c.gap)
      :: places (offset + byteLength c.gap + byteLength c.word) chunks

section

variable {rest : List Char} {chunks : List Chunk}

theorem laid_iff_precedes : Laid rest chunks ↔ Precedes rest chunks ∧ Ending rest := by
  constructor
  · intro h
    induction h with
    | nil hending => exact ⟨.nil, hending⟩
    | cons hgap hword hends _ ih => exact ⟨.cons hgap hword hends ih.1, ih.2⟩
  · rintro ⟨h, hending⟩
    induction h with
    | nil => exact .nil hending
    | cons hgap hword hends _ ih => exact .cons hgap hword hends ih

theorem textOf_eq_append (rest : List Char) (chunks : List Chunk) :
    textOf rest chunks = textOf [] chunks ++ rest := by
  induction chunks with
  | nil => rfl
  | cons c chunks ih => rw [textOf, textOf, ih, List.append_assoc, List.append_assoc]

/-- What stands in front of a chunk, and the chunk without its gap. -/
theorem textOf_append_cons (ending : List Char) (before : List Chunk) (c : Chunk)
    (after : List Chunk) : textOf ending (before ++ c :: after)
      = textOf c.gap before ++ (c.word ++ textOf ending after) := by
  induction before with
  | nil => rfl
  | cons first before ih =>
      rw [List.cons_append, textOf, ih, textOf, List.append_assoc, List.append_assoc]

theorem textOf_append (rest rest' : List Char) (chunks : List Chunk) :
    textOf (rest ++ rest') chunks = textOf rest chunks ++ rest' := by
  rw [textOf_eq_append, textOf_eq_append rest, List.append_assoc]

@[simp] theorem map_fst_places (offset : Nat) (chunks : List Chunk) :
    (places offset chunks).map (·.1) = chunks.map Chunk.lexeme := by
  induction chunks generalizing offset with
  | nil => rfl
  | cons c chunks ih => rw [places, List.map_cons, List.map_cons, ih]

/-- A lexeme's place is the number of bytes in front of it. -/
theorem exists_of_mem_places {offset place : Nat} {l : Lexeme}
    (h : (l, place) ∈ places offset chunks) :
    ∃ before c after, chunks = before ++ c :: after ∧ c.lexeme = l ∧
      place = offset + byteLength (textOf c.gap before) := by
  induction chunks generalizing offset with
  | nil => cases h
  | cons first chunks ih =>
      rw [places, List.mem_cons, Prod.mk.injEq] at h
      rcases h with ⟨rfl, rfl⟩ | h
      · exact ⟨[], first, chunks, rfl, rfl, rfl⟩
      · obtain ⟨before, c, after, rfl, hlexeme, rfl⟩ := ih h
        refine ⟨first :: before, c, after, rfl, hlexeme, ?_⟩
        rw [textOf, byteLength_append, byteLength_append, Nat.add_assoc, Nat.add_assoc]

/-- **Chunks** in front of a rest are found, each where it starts. -/
theorem lexFrom_of_precedes (h : Precedes rest chunks) (offset : Nat)
    (seen : List (Lexeme × Nat)) : lexFrom offset seen (textOf rest chunks)
      = lexFrom (offset + byteLength (textOf [] chunks)) ((places offset chunks).reverse ++ seen)
          rest := by
  induction h generalizing offset seen with
  | nil => rfl
  | cons hgap hword hends _ ih =>
      rw [textOf, lexFrom_gap hgap, lexFrom_of_spells hword hends, ih, places, textOf,
        byteLength_append, byteLength_append, List.reverse_cons, List.append_assoc]
      simp only [Nat.add_assoc, List.singleton_append]

/-- A gap in front of all this belongs to the first chunk, or to the gap behind them. -/
theorem Precedes.prependGap {first gap : List Char} (hfirst : Gap first) (hgap : Gap gap)
    (h : Precedes (gap ++ rest) chunks) : ∃ gap' chunks', Gap gap' ∧
      Precedes (gap' ++ rest) chunks' ∧ textOf gap' chunks' = first ++ textOf gap chunks := by
  cases h with
  | nil => exact ⟨first ++ gap, [], hfirst.append hgap, .nil, rfl⟩
  | @cons c chunks hbefore hword hends hrest =>
      refine ⟨gap, { c with gap := first ++ c.gap } :: chunks, hgap,
        .cons (hfirst.append hbefore) hword hends hrest, ?_⟩
      rw [textOf, textOf, List.append_assoc]

end

/-! ## what cannot be read -/

/-- A quote whose text or position cannot be read: the text has no closing quote, or what
follows the closing quote and an `@` is no position. -/
inductive Unreadable (offset : Nat) : List Char → ReadError → Prop
  | text {cs : List Char} :
      (∀ raw text rest, Escaped raw text → cs ≠ raw ++ '"' :: rest) →
      Unreadable offset ('"' :: cs) (.unterminatedText offset)
  | position {raw text spec rest : List Char} : Escaped raw text →
      (∀ c ∈ spec, isPositionChar c = true) → (∀ c ∈ rest.head?, isPositionChar c = false) →
      (∀ p, ¬ IsPosition spec p) →
      Unreadable offset ('"' :: (raw ++ '"' :: '@' :: (spec ++ rest)))
        (.invalidPosition (String.ofList spec) (offset + byteLength ('"' :: (raw ++ ['"']))))

section

variable {offset : Nat} {c : Char} {cs rest : List Char} {e : ReadError}

/-- Without a closing quote the end of a text is not found. -/
theorem scanText_eq_none_iff {seen : List Char} : scanText offset seen cs = none ↔
    ∀ raw text rest, Escaped raw text → cs ≠ raw ++ '"' :: rest := by
  constructor
  · rintro h raw text rest hraw rfl
    obtain ⟨place, hplace⟩ := scanText_of_escaped hraw rest offset seen
    rw [h] at hplace
    contradiction
  · intro h
    cases hscan : scanText offset seen cs with
    | none => rfl
    | some found =>
        obtain ⟨text, place, rest⟩ := found
        obtain ⟨raw, decoded, hcs, hraw, -⟩ := escaped_of_scanText hscan
        exact absurd hcs (h raw decoded rest hraw)

theorem scanPosition_eq_error_iff :
    scanPosition offset cs = .error e ↔ ∃ spec rest, cs = '@' :: (spec ++ rest) ∧
      (∀ c ∈ spec, isPositionChar c = true) ∧ (∀ c ∈ rest.head?, isPositionChar c = false) ∧
      (∀ p, ¬ IsPosition spec p) ∧ e = .invalidPosition (String.ofList spec) offset := by
  constructor
  · intro h
    unfold scanPosition at h
    split at h
    · next tail =>
      dsimp only at h
      split at h
      · next hspec =>
        cases h
        refine ⟨tail.takeWhile isPositionChar, tail.dropWhile isPositionChar, ?_,
          List.all_eq_true.1 List.all_takeWhile, fun c hc => eq_false_of_mem_head?_dropWhile hc,
          fun p hp => ?_, rfl⟩
        · rw [List.takeWhile_append_dropWhile]
        · rw [readPosition_eq_some_iff.2 hp] at hspec
          contradiction
      · contradiction
    · contradiction
  · rintro ⟨spec, rest, rfl, hchars, hrest, hspec, rfl⟩
    obtain ⟨htake, -⟩ := takeWhile_append_of_break hchars hrest
    have hnone : readPosition spec = none :=
      Option.eq_none_iff_forall_ne_some.2 fun p hp => hspec p (readPosition_eq_some_iff.1 hp)
    rw [scanPosition]
    simp only [htake, hnone]

/-- **Scanning fails** at what cannot be read, and nowhere else. -/
theorem scan_eq_error_iff : scan offset c cs = .error e ↔ Unreadable offset (c :: cs) e := by
  have hsize : '"'.utf8Size = 1 := rfl
  constructor
  · intro h
    unfold scan at h
    split at h
    · contradiction
    split at h
    · contradiction
    split at h
    · contradiction
    split at h
    · contradiction
    split at h
    · contradiction
    split at h
    · next hc =>
      subst hc
      split at h
      · next htext =>
        cases h
        exact .text (scanText_eq_none_iff.1 htext)
      · next place rest htext =>
        split at h
        · next hposition =>
          cases h
          obtain ⟨spec, tail, rfl, hchars, htail, hspec, rfl⟩ :=
            scanPosition_eq_error_iff.1 hposition
          obtain ⟨raw, decoded, rfl, hraw, -⟩ := escaped_of_scanText htext
          have hbytes := place_of_scanText htext
          have hplace : place = offset + byteLength ('"' :: (raw ++ ['"'])) := by
            simp only [byteLength_append, byteLength_cons, byteLength_nil, hsize] at hbytes ⊢
            omega
          rw [hplace]
          exact .position hraw hchars htail hspec
        · contradiction
    · contradiction
  · intro h
    have hblank : isBlank '"' = false := by decide
    cases h with
    | text hopen => simp [scan, hblank, scanText_eq_none_iff.2 hopen]
    | @position raw text spec rest hraw hchars hrest hspec =>
        obtain ⟨place, htext⟩ := scanText_of_escaped hraw ('@' :: (spec ++ rest)) (offset + 1) []
        have hbytes := place_of_scanText htext
        have hplace : offset + byteLength ('"' :: (raw ++ ['"'])) = place := by
          simp only [byteLength_append, byteLength_cons, byteLength_nil, hsize] at hbytes ⊢
          omega
        have hposition : scanPosition place ('@' :: (spec ++ rest))
            = .error (.invalidPosition (String.ofList spec) place) :=
          scanPosition_eq_error_iff.2 ⟨spec, rest, rfl, hchars, hrest, hspec, rfl⟩
        rw [hplace]
        simp [scan, hblank, htext, hposition]

theorem lexFrom_of_unreadable (h : Unreadable offset rest e) (seen : List (Lexeme × Nat)) :
    lexFrom offset seen rest = .error e := by
  cases rest with
  | nil => cases h
  | cons c cs =>
      have hscan := scan_eq_error_iff.2 h
      rw [lexFrom]
      split <;> simp_all

end

/-! ## whole texts -/

/-- **Every text** is cut into chunks up to its end, or up to what cannot be read. -/
theorem exists_precedes (offset : Nat) (cs : List Char) : ∃ chunks gap rest,
    textOf (gap ++ rest) chunks = cs ∧ Precedes (gap ++ rest) chunks ∧ Gap gap ∧
      (Finished rest ∨ ∃ e, Unreadable (offset + byteLength (textOf gap chunks)) rest e) := by
  induction hlength : cs.length using Nat.strongRecOn generalizing offset cs with
  | ind n ih =>
  cases cs with
  | nil => exact ⟨[], [], [], rfl, .nil, .nil, .inl .nil⟩
  | cons c cs =>
  -- a gap in front is passed over, and the rest is shorter
  have hskip : ∀ first tail, Gap first → c :: cs = first ++ tail → tail.length < n →
      ∃ chunks gap rest, textOf (gap ++ rest) chunks = c :: cs ∧ Precedes (gap ++ rest) chunks ∧
        Gap gap ∧
        (Finished rest ∨ ∃ e, Unreadable (offset + byteLength (textOf gap chunks)) rest e) := by
    intro first tail hfirst hcs hlt
    obtain ⟨chunks, gap, rest, rfl, hchunks, hgap, hrest⟩ :=
      ih _ hlt (offset + byteLength first) tail rfl
    obtain ⟨gap', chunks', hgap', hchunks', htext⟩ := hchunks.prependGap hfirst hgap
    refine ⟨chunks', gap', rest, ?_, hchunks', hgap', ?_⟩
    · rw [textOf_append, htext, hcs, textOf_append, List.append_assoc]
    · rw [htext, byteLength_append, ← Nat.add_assoc]
      exact hrest
  cases hscan : scan offset c cs with
  | error e =>
      refine ⟨[], [], c :: cs, rfl, .nil, .nil, .inr ⟨e, ?_⟩⟩
      exact scan_eq_error_iff.1 hscan
  | ok result =>
      obtain ⟨found, place, tail⟩ := result
      cases found with
      | none =>
          rcases gap_of_scan hscan with ⟨hblank, rfl⟩ | ⟨rfl, -⟩
          · exact hskip [c] tail (.blank hblank .nil) rfl (by simp [← hlength])
          · rcases dropWhile_comment cs with ⟨hline, -⟩ | ⟨line, after, hline, rfl, -⟩
            · exact ⟨[], [], ';' :: cs, rfl, .nil, .nil, .inl (.comment hline)⟩
            · refine hskip (';' :: (line ++ ['\n'])) after (.comment hline .nil) (by simp) ?_
              simp [← hlength]
              omega
      | some lexeme =>
          obtain ⟨word, hword, hspells, hends⟩ := spells_of_scan hscan
          have hlt := length_scan_lt hscan
          obtain ⟨chunks, gap, rest, rfl, hchunks, hgap, hrest⟩ :=
            ih _ (hlength ▸ hlt) (offset + byteLength word) tail rfl
          refine ⟨⟨[], word, lexeme⟩ :: chunks, gap, rest, hword.symm,
            .cons .nil hspells hends hchunks, hgap, ?_⟩
          rw [textOf, List.nil_append, byteLength_append, ← Nat.add_assoc]
          exact hrest

/-- A text that is laid out is cut into the lexemes of its chunks. -/
theorem lexFrom_of_laid {ending : List Char} {chunks : List Chunk} (h : Laid ending chunks) :
    lexFrom 0 [] (textOf ending chunks) = .ok (places 0 chunks) := by
  obtain ⟨hchunks, hending⟩ := laid_iff_precedes.1 h
  obtain ⟨gap, rest, rfl, hgap, hrest⟩ := ending_iff.1 hending
  rw [lexFrom_of_precedes hchunks, lexFrom_gap hgap, lexFrom_finished hrest, List.append_nil,
    List.reverse_reverse]

theorem lexFrom_of_precedes_unreadable {chunks : List Chunk} {gap rest : List Char} {e : ReadError}
    (hchunks : Precedes (gap ++ rest) chunks) (hgap : Gap gap)
    (hrest : Unreadable (byteLength (textOf gap chunks)) rest e) :
    lexFrom 0 [] (textOf (gap ++ rest) chunks) = .error e := by
  rw [textOf_eq_append, byteLength_append, ← Nat.zero_add (byteLength (textOf [] chunks))] at hrest
  rw [lexFrom_of_precedes hchunks, lexFrom_gap hgap, lexFrom_of_unreadable hrest]

/-- **The lexemes of a text** are those that it is laid out with, each at its place. -/
theorem lex_eq_ok_iff {s : String} {found : List (Lexeme × Nat)} :
    lex s = .ok found ↔ ∃ ending chunks, Laid ending chunks ∧ textOf ending chunks = s.toList ∧
      found = places 0 chunks := by
  rw [lex]
  constructor
  · intro h
    obtain ⟨chunks, gap, rest, htext, hchunks, hgap, hrest | ⟨e, hrest⟩⟩ :=
      exists_precedes 0 s.toList
    · have hlaid := laid_iff_precedes.2 ⟨hchunks, ending_iff.2 ⟨gap, rest, rfl, hgap, hrest⟩⟩
      rw [← htext, lexFrom_of_laid hlaid] at h
      cases h
      exact ⟨gap ++ rest, chunks, hlaid, htext, rfl⟩
    · rw [Nat.zero_add] at hrest
      rw [← htext, lexFrom_of_precedes_unreadable hchunks hgap hrest] at h
      contradiction
  · rintro ⟨ending, chunks, hlaid, htext, rfl⟩
    rw [← htext]
    exact lexFrom_of_laid hlaid

/-- **The first thing that is no lexeme** is a quote behind chunks and a gap. -/
theorem lex_eq_error_iff {s : String} {e : ReadError} :
    lex s = .error e ↔ ∃ chunks gap rest, textOf (gap ++ rest) chunks = s.toList ∧
      Precedes (gap ++ rest) chunks ∧ Gap gap ∧
      Unreadable (byteLength (textOf gap chunks)) rest e := by
  rw [lex]
  constructor
  · intro h
    obtain ⟨chunks, gap, rest, htext, hchunks, hgap, hrest | ⟨e', hrest⟩⟩ :=
      exists_precedes 0 s.toList
    · have hlaid := laid_iff_precedes.2 ⟨hchunks, ending_iff.2 ⟨gap, rest, rfl, hgap, hrest⟩⟩
      rw [← htext, lexFrom_of_laid hlaid] at h
      contradiction
    · rw [Nat.zero_add] at hrest
      have herror := lexFrom_of_precedes_unreadable hchunks hgap hrest
      rw [← htext, herror] at h
      cases h
      exact ⟨chunks, gap, rest, htext, hchunks, hgap, hrest⟩
  · rintro ⟨chunks, gap, rest, htext, hchunks, hgap, hrest⟩
    rw [← htext]
    exact lexFrom_of_precedes_unreadable hchunks hgap hrest

/-- **Lexing**: a text is cut into lexemes if it is laid out with them. -/
theorem exists_lex_iff_laid (s : String) (lexemes : List Lexeme) :
    (∃ found, lex s = .ok found ∧ found.map (·.1) = lexemes) ↔
      ∃ ending chunks, Laid ending chunks ∧ textOf ending chunks = s.toList ∧
        chunks.map Chunk.lexeme = lexemes := by
  constructor
  · rintro ⟨found, hlex, rfl⟩
    obtain ⟨ending, chunks, hlaid, htext, rfl⟩ := lex_eq_ok_iff.1 hlex
    exact ⟨ending, chunks, hlaid, htext, (map_fst_places 0 chunks).symm⟩
  · rintro ⟨ending, chunks, hlaid, htext, rfl⟩
    exact ⟨places 0 chunks, lex_eq_ok_iff.2 ⟨ending, chunks, hlaid, htext, rfl⟩,
      map_fst_places 0 chunks⟩

/-- Every chunk of a laid out text spells its lexeme. -/
theorem Laid.spells {ending : List Char} {chunks : List Chunk} (h : Laid ending chunks) :
    ∀ c ∈ chunks, Spells c.word c.lexeme := by
  induction h with
  | nil => simp
  | cons _ hword _ _ ih => exact List.forall_mem_cons.2 ⟨hword, ih⟩

/-- **Every atom** that is read is a name. -/
theorem isProper_of_mem_lex {s : String} {lexemes : List (Lexeme × Nat)}
    (h : lex s = .ok lexemes) : ∀ l ∈ lexemes, l.1.isProper = true := by
  obtain ⟨ending, chunks, hlaid, -, rfl⟩ := lex_eq_ok_iff.1 h
  rintro ⟨l, place⟩ hl
  obtain ⟨before, c, after, rfl, rfl, -⟩ := exists_of_mem_places hl
  exact isProper_of_spells (hlaid.spells c (by simp))

end QueryAudit.Notation
