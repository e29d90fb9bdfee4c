import QueryAudit.TokenStream.Basic

/-!
# QueryAudit.Proofs.TokenStream.Buffer

What a stream holds in the end.  The source delivers its tokens up to the first
end token; `contents` are the tokens in the buffer and, behind them, those still
to come, each with its place.  Taking tokens from the source never changes this
list.  A `View` is what a consumer can tell of a stream, and it says nothing of how
much is in the buffer.

* `Grows` — a stream gets more of its tokens into the buffer, and its view stays;
* `nextVisible_spec`, `start_spec`, `ahead_spec`, `behind_spec` — every move over the
  buffer is one over the tokens of the view.
-/

namespace QueryAudit

/-! ## what a source delivers -/

namespace TokenSource

/-- The tokens of a list up to its first end token, or `last` behind all of them. -/
def upToEndFrom (last : Token) : List Token → List Token
  | [] => [last]
  | t :: rest => if t.isEnd then [t] else t :: upToEndFrom last rest

/-- The tokens that a source delivers, up to and including the first end token. -/
def upToEnd (s : TokenSource) : List Token := upToEndFrom s.last s.rest

/-- The next token comes first, and nothing comes behind an end token. -/
theorem upToEnd_eq (s : TokenSource) :
    s.upToEnd = s.next.1 :: if s.next.1.isEnd then [] else s.next.2.upToEnd := by
  obtain ⟨rest, last, hlast⟩ := s
  cases rest with
  | nil => simp [upToEnd, upToEndFrom, next, hlast]
  | cons t rest => cases h : t.isEnd <;> simp [upToEnd, upToEndFrom, next, h]

theorem length_upToEndFrom_le (last : Token) (tokens : List Token) :
    (upToEndFrom last tokens).length ≤ tokens.length + 1 := by
  induction tokens with
  | nil => simp [upToEndFrom]
  | cons t rest ih => cases h : t.isEnd <;> simp [upToEndFrom, h, ih]

/-- The last token that is delivered, and no other, is an end token. -/
theorem isEnd_upToEndFrom {last : Token} (hlast : last.isEnd = true) {tokens : List Token}
    {j : Nat} {t : Token} (h : (upToEndFrom last tokens)[j]? = some t) :
    t.isEnd = true ↔ j + 1 = (upToEndFrom last tokens).length := by
  induction tokens generalizing j with
  | nil =>
      cases j with
      | zero => simp_all [upToEndFrom]
      | succ j => simp [upToEndFrom] at h
  | cons u rest ih =>
      have hpos : 0 < (upToEndFrom last rest).length := by
        cases rest with
        | nil => simp [upToEndFrom]
        | cons v rest => cases hv : v.isEnd <;> simp [upToEndFrom, hv]
      cases hu : u.isEnd with
      | true =>
          cases j with
          | zero => simp_all [upToEndFrom]
          | succ j => simp [upToEndFrom, hu] at h
      | false =>
          simp only [upToEndFrom, hu, Bool.false_eq_true, if_false, List.length_cons] at h ⊢
          cases j with
          | zero =>
              simp only [List.getElem?_cons_zero, Option.some.injEq] at h
              subst h
              simp only [hu, Bool.false_eq_true, false_iff]
              omega
          | succ j =>
              rw [ih h]
              omega

end TokenSource

/-- Tokens with their places, the first of which is `place`. -/
def numberFrom (place : Nat) (tokens : List Token) : List Token :=
  tokens.mapIdx fun i t => { t with index := place + i }

theorem numberFrom_cons (place : Nat) (t : Token) (tokens : List Token) :
    numberFrom place (t :: tokens) = { t with index := place } :: numberFrom (place + 1) tokens := by
  simp [numberFrom, List.mapIdx_cons, Nat.add_assoc, Nat.add_comm 1]

namespace TokenStream

/-! ## the view of a stream -/

/-- The tokens that a stream holds when all of them are in the buffer. -/
def contents (s : TokenStream) : List Token :=
  s.buffer.toList ++ if s.ended then [] else numberFrom s.buffer.size s.source.upToEnd

/-- What a consumer can tell of a stream: its tokens, wherever they are kept, its
cursor and its active channels. -/
structure View where
  tokens : List Token
  cursor : Option Nat
  channels : ChannelSet

/-- The view of a stream. -/
def view (s : TokenStream) : View := ⟨s.contents, s.cursor, s.channels⟩

@[simp] theorem tokens_view (s : TokenStream) : s.view.tokens = s.contents := rfl
@[simp] theorem cursor_view (s : TokenStream) : s.view.cursor = s.cursor := rfl
@[simp] theorem channels_view (s : TokenStream) : s.view.channels = s.channels := rfl

theorem contents_of_ended {s : TokenStream} (h : s.ended = true) :
    s.contents = s.buffer.toList := by
  simp [contents, h]

theorem size_le_length_contents (s : TokenStream) : s.buffer.size ≤ s.contents.length := by
  simp [contents]

/-- As long as the end token is not in the buffer there is more to come. -/
theorem size_lt_length_contents {s : TokenStream} (h : s.ended = false) :
    s.buffer.size < s.contents.length := by
  rw [contents, h, TokenSource.upToEnd_eq, numberFrom_cons]
  simp

theorem contents_of_size_eq {s : TokenStream} (h : s.buffer.size = s.contents.length) :
    s.contents = s.buffer.toList := by
  cases hended : s.ended with
  | true => exact contents_of_ended hended
  | false =>
      have := size_lt_length_contents hended
      omega

/-- What is in the buffer is at its place in the contents. -/
theorem getElem?_buffer {s : TokenStream} {i : Nat} (h : i < s.buffer.size) :
    s.buffer[i]? = s.contents[i]? := by
  rw [contents, List.getElem?_append_left (by simpa using h), Array.getElem?_toList]

/-! ## filling the buffer -/

/-- The same stream with more of its tokens in the buffer. -/
structure Grows (s s' : TokenStream) : Prop where
  view_eq : s'.view = s.view
  size_le : s.buffer.size ≤ s'.buffer.size

theorem Grows.refl (s : TokenStream) : Grows s s := ⟨rfl, Nat.le_refl _⟩

theorem Grows.trans {s s' s'' : TokenStream} (h : Grows s s') (h' : Grows s' s'') :
    Grows s s'' :=
  ⟨h'.view_eq.trans h.view_eq, Nat.le_trans h.size_le h'.size_le⟩

theorem Grows.contents_eq {s s' : TokenStream} (h : Grows s s') : s'.contents = s.contents :=
  congrArg View.tokens h.view_eq

theorem Grows.cursor_eq {s s' : TokenStream} (h : Grows s s') : s'.cursor = s.cursor :=
  congrArg View.cursor h.view_eq

theorem Grows.channels_eq {s s' : TokenStream} (h : Grows s s') : s'.channels = s.channels :=
  congrArg View.channels h.view_eq

/-- The next token of the source goes from one part of the contents to the other. -/
theorem contents_push {s : TokenStream} (h : s.ended = false) :
    contents { s with
      source := s.source.next.2
      buffer := s.buffer.push { s.source.next.1 with index := s.buffer.size }
      ended := s.source.next.1.isEnd } = s.contents := by
  rw [contents, contents, h, s.source.upToEnd_eq, numberFrom_cons]
  cases hend : s.source.next.1.isEnd <;> simp [numberFrom]

theorem view_fetch (n : Nat) (s : TokenStream) : (fetch n s).view = s.view := by
  induction n generalizing s with
  | zero => rfl
  | succ n ih =>
      rw [fetch]
      split
      · rfl
      · next h =>
          rw [ih, view, view, contents_push (by simpa using h)]

theorem grows_fetch (n : Nat) (s : TokenStream) : Grows s (fetch n s) :=
  ⟨view_fetch n s, size_le_size_fetch n s⟩

/-- Fetching takes as many tokens as it is told to, if there are as many. -/
theorem size_fetch (n : Nat) (s : TokenStream) :
    (fetch n s).buffer.size = min (s.buffer.size + n) s.contents.length := by
  induction n generalizing s with
  | zero =>
      have := size_le_length_contents s
      rw [fetch]
      omega
  | succ n ih =>
      rw [fetch]
      split
      · next h =>
          rw [contents_of_ended h]
          simp
      · next h =>
          rw [ih, contents_push (by simpa using h)]
          simp only [Array.size_push]
          omega

theorem grows_sync (s : TokenStream) (i : Nat) : Grows s (s.sync i) := by
  rw [sync]
  split
  · exact .refl s
  · exact grows_fetch _ s

/-- A sync takes what is missing up to a place, if there are as many tokens. -/
theorem size_sync (s : TokenStream) (i : Nat) :
    (s.sync i).buffer.size = max s.buffer.size (min (i + 1) s.contents.length) := by
  have := size_le_length_contents s
  rw [sync]
  split
  · omega
  · rw [size_fetch]
    omega

/-- Filling the buffer puts all tokens there. -/
theorem buffer_fill (s : TokenStream) : s.fill.buffer.toList = s.contents := by
  have hlength : s.contents.length ≤ s.buffer.size + s.unread := by
    have := TokenSource.length_upToEndFrom_le s.source.last s.source.rest
    cases h : s.ended <;>
      simp [contents, unread, h, numberFrom, TokenSource.upToEnd]
    omega
  have hcontents : s.fill.contents = s.contents := (grows_fetch _ s).contents_eq
  rw [← hcontents]
  refine (contents_of_size_eq ?_).symm
  rw [hcontents, fill, size_fetch]
  omega

/-! ## moving over the tokens -/

namespace View

variable (v : View)

/-- Whether the consumer sees a token. -/
def isVisible (t : Token) : Bool := t.isEnd || v.channels.contains t.channel

/-- The first visible place from `i` on, or the last place of all. -/
def nextPlace (i : Nat) : Nat :=
  min (i + (v.tokens.drop i).findIdx v.isVisible) (v.tokens.length - 1)

/-- The place of the current token; before the first look it is the first visible one. -/
def place : Nat := v.cursor.getD (v.nextPlace 0)

/-- The place `n` visible tokens after place `i`, no further than the last one. -/
def ahead : Nat → Nat → Nat
  | 0, i => i
  | n + 1, i => ahead n (v.nextPlace (i + 1))

/-- The last visible place before `i`. -/
def lastBefore : Nat → Option Nat
  | 0 => none
  | i + 1 => if v.tokens[i]?.any v.isVisible then some i else lastBefore i

/-- The place `n` visible tokens before place `i`. -/
def behind : Nat → Nat → Option Nat
  | 0, i => some i
  | n + 1, i => (v.lastBefore i).bind (behind n)

theorem nextPlace_of_visible {v : View} {i : Nat} {t : Token} (ht : v.tokens[i]? = some t)
    (hvisible : v.isVisible t = true) : v.nextPlace i = i := by
  obtain ⟨hi, rfl⟩ := List.getElem?_eq_some_iff.1 ht
  rw [nextPlace, List.drop_eq_getElem_cons hi, List.findIdx_cons, hvisible]
  simp
  omega

theorem nextPlace_of_hidden {v : View} {i : Nat} {t : Token} (ht : v.tokens[i]? = some t)
    (hhidden : v.isVisible t = false) : v.nextPlace i = v.nextPlace (i + 1) := by
  obtain ⟨hi, rfl⟩ := List.getElem?_eq_some_iff.1 ht
  rw [nextPlace, nextPlace, List.drop_eq_getElem_cons hi, List.findIdx_cons, hhidden]
  simp
  omega

theorem nextPlace_of_length_le {v : View} {i : Nat} (h : v.tokens.length ≤ i) :
    v.nextPlace i = v.tokens.length - 1 := by
  rw [nextPlace, List.drop_eq_nil_of_le h]
  simp
  omega

/-- Places are found whatever the cursor is. -/
@[simp] theorem nextPlace_setCursor (v : View) (cursor : Option Nat) (i : Nat) :
    { v with cursor }.nextPlace i = v.nextPlace i := rfl

@[simp] theorem ahead_setCursor (v : View) (cursor : Option Nat) (n i : Nat) :
    { v with cursor }.ahead n i = v.ahead n i := by
  induction n generalizing i with
  | zero => rfl
  | succ n ih => rw [ahead, ahead, ih, nextPlace_setCursor]

@[simp] theorem lastBefore_setCursor (v : View) (cursor : Option Nat) (i : Nat) :
    { v with cursor }.lastBefore i = v.lastBefore i := by
  induction i with
  | zero => rfl
  | succ i ih =>
      rw [lastBefore, lastBefore, ih]
      rfl

@[simp] theorem behind_setCursor (v : View) (cursor : Option Nat) (n i : Nat) :
    { v with cursor }.behind n i = v.behind n i := by
  induction n generalizing i with
  | zero => rfl
  | succ n ih =>
      rw [behind, behind, lastBefore_setCursor]
      exact congrArg _ (funext ih)

theorem lt_of_lastBefore {v : View} {i j : Nat} (h : v.lastBefore i = some j) : j < i := by
  fun_induction lastBefore v i <;> grind

/-- There is nothing ahead of the last place. -/
theorem ahead_last {v : View} {i : Nat} (h : i + 1 = v.tokens.length) (n : Nat) :
    v.ahead n i = i := by
  induction n with
  | zero => rfl
  | succ n ih =>
      have hnext : v.nextPlace (i + 1) = i := by
        rw [nextPlace_of_length_le (by omega)]
        omega
      rw [ahead, hnext, ih]

end View

theorem isVisible_view (s : TokenStream) : s.view.isVisible = s.isVisible := rfl

/-- **The search for a visible token** is one in the view, and what it finds is in
the buffer. -/
theorem nextVisible_spec (s : TokenStream) (i : Nat) (hpos : 0 < s.contents.length) :
    Grows s (s.nextVisible i).1 ∧ (s.nextVisible i).2 = s.view.nextPlace i ∧
      (s.nextVisible i).2 < (s.nextVisible i).1.buffer.size := by
  have hgrows := grows_sync s i
  fun_induction nextVisible s i with
  | case1 s i hi hvisible =>
      have ht := getElem?_buffer hi
      rw [Array.getElem?_eq_getElem hi, hgrows.contents_eq] at ht
      rw [← isVisible_view, hgrows.view_eq] at hvisible
      exact ⟨hgrows, (View.nextPlace_of_visible ht.symm hvisible).symm, hi⟩
  | case2 s i hi hhidden ih =>
      have ht := getElem?_buffer hi
      rw [Array.getElem?_eq_getElem hi, hgrows.contents_eq] at ht
      rw [← isVisible_view, hgrows.view_eq, Bool.not_eq_true] at hhidden
      obtain ⟨hrest, hplace, hlt⟩ := ih (hgrows.contents_eq ▸ hpos) (grows_sync _ _)
      refine ⟨hgrows.trans hrest, ?_, hlt⟩
      rw [hplace, hgrows.view_eq]
      exact (View.nextPlace_of_hidden ht.symm hhidden).symm
  | case3 s i hi =>
      have hsize := size_sync s i
      have hle := size_le_length_contents s
      dsimp only
      refine ⟨hgrows, ?_, by omega⟩
      rw [View.nextPlace_of_length_le (by rw [tokens_view]; omega), tokens_view]
      omega

/-- The current place is that of the view, and it is in the buffer. -/
theorem start_spec (s : TokenStream) (hpos : 0 < s.contents.length)
    (hcursor : ∀ i, s.cursor = some i → i < s.buffer.size) :
    s.start.1.view = { s.view with cursor := some s.view.place } ∧ s.start.2 = s.view.place ∧
      s.start.2 < s.start.1.buffer.size := by
  unfold start
  split
  · next i h =>
    have hplace : s.view.place = i := by simp [View.place, h]
    refine ⟨?_, hplace.symm, hcursor i h⟩
    rw [hplace, ← h]
    rfl
  · next h =>
    obtain ⟨hgrows, hnext, hlt⟩ := nextVisible_spec s 0 hpos
    have hplace : s.view.place = s.view.nextPlace 0 := by simp [View.place, h]
    refine ⟨?_, hnext.trans hplace.symm, hlt⟩
    have hcontents := hgrows.contents_eq
    have hchannels := hgrows.channels_eq
    simp only [hplace, ← hnext]
    simp only [view, contents] at hcontents ⊢
    simp [hcontents, hchannels]

/-- Going ahead goes over the tokens of the view. -/
theorem ahead_spec (n : Nat) (s : TokenStream) (i : Nat) (hi : i < s.buffer.size) :
    Grows s (ahead n s i).1 ∧ (ahead n s i).2 = s.view.ahead n i ∧
      (ahead n s i).2 < (ahead n s i).1.buffer.size := by
  induction n generalizing s i with
  | zero => exact ⟨.refl s, rfl, hi⟩
  | succ n ih =>
      have hle := size_le_length_contents s
      have hsync := grows_sync s (i + 1)
      have hsize := size_sync s (i + 1)
      rw [ahead, View.ahead]
      dsimp only
      split
      · next h =>
        obtain ⟨hnext, hplace, hlt⟩ := nextVisible_spec (s.sync (i + 1)) (i + 1)
          (by rw [hsync.contents_eq]; omega)
        obtain ⟨hrest, hahead, hlt⟩ := ih _ _ hlt
        refine ⟨hsync.trans (hnext.trans hrest), ?_, hlt⟩
        rw [hahead, hplace, hnext.view_eq, hsync.view_eq]
      · next h =>
        refine ⟨hsync, ?_, by dsimp only; omega⟩
        rw [View.nextPlace_of_length_le (by rw [tokens_view]; omega), tokens_view,
          View.ahead_last (by rw [tokens_view]; omega)]
        dsimp only
        omega

theorem lastVisible_eq (s : TokenStream) {i : Nat} (hi : i < s.buffer.size) :
    s.lastVisible i = s.view.lastBefore (i + 1) := by
  induction i with
  | zero =>
      rw [lastVisible, View.lastBefore, getElem?_buffer hi]
      rfl
  | succ i ih =>
      rw [lastVisible, View.lastBefore, getElem?_buffer hi, ih (by omega)]
      rfl

/-- Going back stays in the buffer. -/
theorem behind_spec (s : TokenStream) (n : Nat) {i : Nat} (hi : i < s.buffer.size) :
    s.behind n i = s.view.behind n i ∧ ∀ j, s.behind n i = some j → j < s.buffer.size := by
  induction n generalizing i with
  | zero => exact ⟨rfl, by simp [behind, hi]⟩
  | succ n ih =>
      cases i with
      | zero => exact ⟨rfl, by simp [behind]⟩
      | succ i =>
          rw [behind, View.behind, lastVisible_eq s (by omega)]
          cases hlast : s.view.lastBefore (i + 1) with
          | none => exact ⟨rfl, by simp⟩
          | some j =>
              have hj := View.lt_of_lastBefore hlast
              exact ih (by omega)

/-- Rewinding looks at the tokens before the cursor only. -/
theorem rewindIndex_congr {tokens tokens' : Array Token} {i : Nat}
    (h : ∀ j < i, tokens[j]? = tokens'[j]?) (channels : ChannelSet) (c : Channel) :
    rewindIndex tokens channels c i = rewindIndex tokens' channels c i := by
  induction i with
  | zero => rfl
  | succ i ih =>
      rw [rewindIndex, rewindIndex, h i (Nat.lt_succ_self i), ih fun j hj => h j (by omega)]

theorem rewindIndex_le (tokens : Array Token) (channels : ChannelSet) (c : Channel) (i : Nat) :
    rewindIndex tokens channels c i ≤ i := by
  fun_induction rewindIndex tokens channels c i <;> omega

end TokenStream

end QueryAudit
