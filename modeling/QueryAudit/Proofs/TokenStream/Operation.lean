import QueryAudit.Proofs.TokenStream.Buffer

/-!
# QueryAudit.Proofs.TokenStream.Operation

What a consumer does with a stream, as data: a list of operations is run one after
the other, and each of them gives an answer.  An operation does to the view of a
stream what `View.step` says, and its answer is the one given there; how much of
the stream is in the buffer plays no part.

* `Sound` — what holds of a stream at every moment;
* `step_spec` — the view after an operation and its answer;
* `answers_fill` — a stream that was filled beforehand gives the same answers.
-/

namespace QueryAudit

namespace TokenStream

/-! ## operations and answers -/

/-- What a consumer can ask of a stream. -/
inductive Operation where
  | lookAhead (k : Nat)
  | lookBehind (k : Nat)
  /-- Look ahead, but only at the type of the token. -/
  | lookType (k : Nat)
  | consume
  | seek (i : Nat)
  | fill
  | countActive
  | enable (c : Channel)
  | disable (c : Channel)
  /-- Ask for the place of the cursor. -/
  | index
  /-- Ask for the active channels. -/
  | channels
deriving DecidableEq, Repr

/-- What a consumer gets for an operation. -/
inductive Answer where
  | done
  | token (t : Option Token)
  | type (type : Option Int)
  | result (r : Except ConsumeError Unit)
  | count (n : Nat)
  | place (i : Option Nat)
  | channels (s : ChannelSet)

/-- Carry out one operation. -/
def step (s : TokenStream) : Operation → TokenStream × Answer
  | .lookAhead k => ((s.lookAhead k).1, .token (s.lookAhead k).2)
  | .lookBehind k => ((s.lookBehind k).1, .token (s.lookBehind k).2)
  | .lookType k => ((s.lookAhead k).1, .type ((s.lookAhead k).2.map Token.type))
  | .consume => (s.consume.1, .result s.consume.2)
  | .seek i => (s.seek i, .done)
  | .fill => (s.fill, .done)
  | .countActive => (s.countActive.1, .count s.countActive.2)
  | .enable c => (s.enable c, .done)
  | .disable c => (s.disable c, .done)
  | .index => (s, .place s.cursor)
  | .channels => (s, .channels s.channels)

/-- The stream after a list of operations. -/
def run (s : TokenStream) (ops : List Operation) : TokenStream :=
  ops.foldl (fun s op => (s.step op).1) s

/-- The answers to a list of operations. -/
def answers (s : TokenStream) : List Operation → List Answer
  | [] => []
  | op :: ops => (s.step op).2 :: (s.step op).1.answers ops

@[simp] theorem run_nil (s : TokenStream) : s.run [] = s := rfl

@[simp] theorem run_cons (s : TokenStream) (op : Operation) (ops : List Operation) :
    s.run (op :: ops) = (s.step op).1.run ops := rfl

theorem run_append (s : TokenStream) (ops ops' : List Operation) :
    s.run (ops ++ ops') = (s.run ops).run ops' := by
  simp [run]

/-! ## operations on views -/

namespace View

variable (v : View)

/-- The view once the consumer has looked at the stream. -/
def started : View := { v with cursor := some v.place }

/-- The `k`-th visible token from the current place on. -/
def lookAhead : Nat → Option Token
  | 0 => none
  | n + 1 => v.tokens[v.ahead n v.place]?

/-- The `k`-th visible token before the current place. -/
def lookBehind : Nat → Option Token
  | 0 => none
  | n + 1 => (v.behind (n + 1) v.place).bind (v.tokens[·]?)

/-- Move on to the next visible token, unless the current one is the end. -/
def consume : View × Except ConsumeError Unit :=
  if v.tokens[v.place]?.any Token.isEnd then (v.started, .error .atEnd)
  else ({ v with cursor := some (v.nextPlace (v.place + 1)) }, .ok ())

/-- Make a channel active and go back over what was skipped because of it. -/
def enable (c : Channel) : View :=
  if v.channels.contains c then v
  else
    { v with
      channels := v.channels.insert c
      cursor := v.cursor.map (rewindIndex v.tokens.toArray (v.channels.insert c) c) }

/-- Carry out one operation. -/
def step : Operation → View × Answer
  | .lookAhead k => (v.started, .token (v.lookAhead k))
  | .lookBehind k => (v.started, .token (v.lookBehind k))
  | .lookType k => (v.started, .type ((v.lookAhead k).map Token.type))
  | .consume => (v.consume.1, .result v.consume.2)
  | .seek i => ({ v with cursor := some (v.nextPlace i) }, .done)
  | .fill => (v, .done)
  | .countActive => (v, .count (v.tokens.countP fun t => v.channels.contains t.channel))
  | .enable c => (v.enable c, .done)
  | .disable c => ({ v with channels := v.channels.erase c }, .done)
  | .index => (v, .place v.cursor)
  | .channels => (v, .channels v.channels)

/-- No operation changes the tokens. -/
theorem tokens_step (op : Operation) : (v.step op).1.tokens = v.tokens := by
  cases op with
  | consume =>
      simp only [step, consume]
      split <;> rfl
  | enable c =>
      simp only [step, enable]
      split <;> rfl
  | _ => rfl

/-- The answers to a list of operations. -/
def answers (v : View) : List Operation → List Answer
  | [] => []
  | op :: ops => (v.step op).2 :: (v.step op).1.answers ops

end View

/-! ## sound streams -/

/-- The tokens of a stream are numbered, and the last of them, and no other, ends it. -/
structure Ordered (tokens : List Token) : Prop where
  length_pos : 0 < tokens.length
  index_eq : ∀ (j : Nat) (t : Token), tokens[j]? = some t → t.index = j
  isEnd_iff : ∀ (j : Nat) (t : Token), tokens[j]? = some t → (t.isEnd = true ↔ j + 1 = tokens.length)

/-- What holds of a stream at every moment: its tokens are in order, and the cursor
is in the buffer once it is set. -/
structure Sound (s : TokenStream) : Prop where
  ordered : Ordered s.contents
  cursor_lt : ∀ i, s.cursor = some i → i < s.buffer.size

/-- A fresh stream holds what its source delivers. -/
theorem contents_ofSource (source : TokenSource) (channels : ChannelSet) :
    (ofSource source channels).contents = numberFrom 0 source.upToEnd := by
  simp [contents, ofSource]

theorem sound_ofSource (source : TokenSource) (channels : ChannelSet) :
    (ofSource source channels).Sound where
  ordered := by
    rw [contents_ofSource]
    refine ⟨?_, ?_, ?_⟩
    · rw [source.upToEnd_eq, numberFrom_cons]
      simp
    · intro j t h
      rw [numberFrom, List.getElem?_mapIdx, Option.map_eq_some_iff] at h
      obtain ⟨u, -, rfl⟩ := h
      simp
    · intro j t h
      rw [numberFrom, List.getElem?_mapIdx, Option.map_eq_some_iff] at h
      obtain ⟨u, hu, rfl⟩ := h
      rw [numberFrom, List.length_mapIdx]
      show u.isEnd = true ↔ _
      exact TokenSource.isEnd_upToEndFrom source.isEnd_last hu
  cursor_lt i h := by simp [ofSource] at h

namespace Sound

variable {s s' : TokenStream}

theorem of_contents_eq (h : s.Sound) (hcontents : s'.contents = s.contents)
    (hcursor : ∀ i, s'.cursor = some i → i < s'.buffer.size) : s'.Sound :=
  ⟨hcontents ▸ h.ordered, hcursor⟩

theorem of_grows (h : s.Sound) (hgrows : Grows s s') : s'.Sound :=
  h.of_contents_eq hgrows.contents_eq fun i hi =>
    Nat.lt_of_lt_of_le (h.cursor_lt i (hgrows.cursor_eq ▸ hi)) hgrows.size_le

/-- Looking at a stream sets its cursor. -/
theorem start (h : s.Sound) :
    s.start.1.view = s.view.started ∧ s.start.2 = s.view.place ∧
      s.start.2 < s.start.1.buffer.size ∧ s.start.1.Sound := by
  obtain ⟨hview, hplace, hlt⟩ := start_spec s h.ordered.length_pos h.cursor_lt
  refine ⟨hview, hplace, hlt, h.of_contents_eq (congrArg View.tokens hview) ?_⟩
  intro i hi
  have hcursor : s.start.1.cursor = some s.view.place := congrArg View.cursor hview
  rw [hcursor, Option.some.injEq] at hi
  rw [← hi, ← hplace]
  exact hlt

/-- Moving the cursor to the first visible token from a place on. -/
theorem moveTo (h : s.Sound) (i : Nat) :
    view { (s.nextVisible i).1 with cursor := some (s.nextVisible i).2 }
        = { s.view with cursor := some (s.view.nextPlace i) } ∧
      Sound { (s.nextVisible i).1 with cursor := some (s.nextVisible i).2 } := by
  obtain ⟨hgrows, hplace, hlt⟩ := nextVisible_spec s i h.ordered.length_pos
  constructor
  · rw [← hplace, ← hgrows.view_eq]
    rfl
  · refine h.of_contents_eq hgrows.contents_eq fun j hj => ?_
    cases hj
    exact hlt

/-- **Looking ahead** shows what the view shows. -/
theorem lookAhead (h : s.Sound) (k : Nat) :
    (s.lookAhead k).1.view = s.view.started ∧ (s.lookAhead k).2 = s.view.lookAhead k ∧
      (s.lookAhead k).1.Sound := by
  obtain ⟨hview, hplace, hlt, hsound⟩ := h.start
  cases k with
  | zero => exact ⟨hview, rfl, hsound⟩
  | succ n =>
      obtain ⟨hgrows, hahead, hlt⟩ := ahead_spec n s.start.1 s.start.2 hlt
      refine ⟨hgrows.view_eq.trans hview, ?_, hsound.of_grows hgrows⟩
      have hshown : (s.lookAhead (n + 1)).2
          = (ahead n s.start.1 s.start.2).1.buffer[(ahead n s.start.1 s.start.2).2]? := rfl
      rw [hshown, getElem?_buffer hlt, hgrows.contents_eq, hahead, hplace, ← tokens_view, hview,
        View.started, View.ahead_setCursor, View.lookAhead]

/-- **Looking behind** shows what the view shows. -/
theorem lookBehind (h : s.Sound) (k : Nat) :
    (s.lookBehind k).1.view = s.view.started ∧ (s.lookBehind k).2 = s.view.lookBehind k ∧
      (s.lookBehind k).1.Sound := by
  obtain ⟨hview, hplace, hlt, hsound⟩ := h.start
  cases k with
  | zero => exact ⟨hview, rfl, hsound⟩
  | succ n =>
      obtain ⟨hbehind, hbefore⟩ := behind_spec s.start.1 (n + 1) hlt
      refine ⟨hview, ?_, hsound⟩
      have hshown : (s.lookBehind (n + 1)).2
          = (s.start.1.behind (n + 1) s.start.2).bind (s.start.1.buffer[·]?) := rfl
      have htokens : (s.start.1.behind (n + 1) s.start.2).bind (s.start.1.buffer[·]?)
          = (s.start.1.behind (n + 1) s.start.2).bind (s.start.1.contents[·]?) :=
        Option.bind_congr fun j hj => getElem?_buffer (hbefore j hj)
      rw [hshown, htokens, hbehind, hplace, ← tokens_view, hview, View.started,
        View.behind_setCursor, View.lookBehind]

/-- **Consuming** moves the cursor of the view. -/
theorem consume (h : s.Sound) :
    s.consume.1.view = s.view.consume.1 ∧ s.consume.2 = s.view.consume.2 ∧
      s.consume.1.Sound := by
  obtain ⟨hview, hplace, hlt, hsound⟩ := h.start
  have hcurrent : s.start.1.buffer[s.start.2]? = s.view.tokens[s.view.place]? := by
    rw [getElem?_buffer hlt, ← tokens_view, hview, hplace]
    rfl
  unfold TokenStream.consume View.consume
  dsimp only
  rw [hcurrent]
  split
  · exact ⟨hview, rfl, hsound⟩
  · have hsync := grows_sync s.start.1 (s.start.2 + 1)
    split
    · obtain ⟨hmove, hsound⟩ := (hsound.of_grows hsync).moveTo (s.start.2 + 1)
      refine ⟨hmove.trans ?_, rfl, hsound⟩
      rw [hsync.view_eq, hview, hplace]
      rfl
    · next hout =>
      have hsize := size_sync s.start.1 (s.start.2 + 1)
      have hle := size_le_length_contents s.start.1
      have hlast : s.view.nextPlace (s.view.place + 1) = s.view.place := by
        have hlength : s.start.1.contents.length = s.view.tokens.length := by
          rw [← tokens_view, hview]
          rfl
        rw [View.nextPlace_of_length_le (by omega)]
        omega
      refine ⟨hsync.view_eq.trans ?_, rfl, hsound.of_grows hsync⟩
      rw [hview, hlast]
      rfl

/-- **Seeking** moves the cursor of the view. -/
theorem seek (h : s.Sound) (i : Nat) :
    (s.seek i).view = { s.view with cursor := some (s.view.nextPlace i) } ∧ (s.seek i).Sound := by
  obtain ⟨hview, -, -, hsound⟩ := h.start
  obtain ⟨hmove, hsound⟩ := hsound.moveTo i
  refine ⟨hmove.trans ?_, hsound⟩
  rw [hview]
  rfl

/-- **Enabling** a channel rewinds the view. -/
theorem enable (h : s.Sound) (c : Channel) :
    (s.enable c).view = s.view.enable c ∧ (s.enable c).Sound := by
  have hcursor : s.cursor.map
        (fun i => rewindIndex s.buffer (s.channels.insert c) c (min i s.buffer.size))
      = s.cursor.map (rewindIndex s.contents.toArray (s.channels.insert c) c) := by
    refine Option.map_congr fun i hi => ?_
    have hi := h.cursor_lt i hi
    rw [Nat.min_eq_left (Nat.le_of_lt hi)]
    refine rewindIndex_congr (fun j hj => ?_) _ _
    rw [getElem?_buffer (Nat.lt_trans hj hi), List.getElem?_toArray]
  unfold TokenStream.enable View.enable
  rw [channels_view]
  split
  · exact ⟨rfl, h⟩
  · dsimp only
    rw [hcursor]
    refine ⟨rfl, h.of_contents_eq rfl fun j hj => ?_⟩
    obtain ⟨i, hi, rfl⟩ := Option.map_eq_some_iff.1 hj
    exact Nat.lt_of_le_of_lt (rewindIndex_le _ _ _ i) (h.cursor_lt i hi)

end Sound

/-- **One operation** does to the view what `View.step` says. -/
theorem step_spec {s : TokenStream} (h : s.Sound) (op : Operation) :
    ((s.step op).1.view, (s.step op).2) = s.view.step op ∧ (s.step op).1.Sound := by
  cases op with
  | lookAhead k =>
      obtain ⟨hview, hshown, hsound⟩ := h.lookAhead k
      exact ⟨by simp only [step, View.step, hview, hshown], hsound⟩
  | lookBehind k =>
      obtain ⟨hview, hshown, hsound⟩ := h.lookBehind k
      exact ⟨by simp only [step, View.step, hview, hshown], hsound⟩
  | lookType k =>
      obtain ⟨hview, hshown, hsound⟩ := h.lookAhead k
      exact ⟨by simp only [step, View.step, hview, hshown], hsound⟩
  | consume =>
      obtain ⟨hview, hresult, hsound⟩ := h.consume
      exact ⟨by simp only [step, View.step, hview, hresult], hsound⟩
  | seek i =>
      obtain ⟨hview, hsound⟩ := h.seek i
      exact ⟨by simp only [step, View.step, hview], hsound⟩
  | fill =>
      have hgrows : Grows s s.fill := grows_fetch _ s
      exact ⟨by simp only [step, View.step, hgrows.view_eq], h.of_grows hgrows⟩
  | countActive =>
      have hgrows : Grows s s.fill := grows_fetch _ s
      have hcount : s.countActive.2
          = s.view.tokens.countP fun t => s.view.channels.contains t.channel := by
        rw [countActive, ← Array.countP_toList, buffer_fill, hgrows.channels_eq]
        rfl
      have hview : s.countActive.1.view = s.view := hgrows.view_eq
      exact ⟨by simp only [step, View.step, hview, hcount], h.of_grows hgrows⟩
  | enable c =>
      obtain ⟨hview, hsound⟩ := h.enable c
      exact ⟨by simp only [step, View.step, hview], hsound⟩
  | disable c => exact ⟨rfl, h.of_contents_eq rfl h.cursor_lt⟩
  | index => exact ⟨rfl, h⟩
  | channels => exact ⟨rfl, h⟩

/-- **A run** keeps a stream sound. -/
theorem Sound.run {s : TokenStream} (h : s.Sound) (ops : List Operation) : (s.run ops).Sound := by
  induction ops generalizing s with
  | nil => exact h
  | cons op ops ih => exact ih (step_spec h op).2

theorem contents_run {s : TokenStream} (h : s.Sound) (ops : List Operation) :
    (s.run ops).contents = s.contents := by
  induction ops generalizing s with
  | nil => rfl
  | cons op ops ih =>
      obtain ⟨hstep, hsound⟩ := step_spec h op
      have hcontents : (s.step op).1.contents = (s.view.step op).1.tokens :=
        congrArg (fun result => result.1.tokens) hstep
      rw [run_cons, ih hsound, hcontents, View.tokens_step]
      rfl

/-- **The answers** to operations are those of the view. -/
theorem answers_eq {s : TokenStream} (h : s.Sound) (ops : List Operation) :
    s.answers ops = s.view.answers ops := by
  induction ops generalizing s with
  | nil => rfl
  | cons op ops ih =>
      obtain ⟨hstep, hsound⟩ := step_spec h op
      rw [answers, View.answers, ih hsound, ← hstep]

/-! ## lazy streams -/

/-- What is in the buffer of a stream over a source: the first tokens that the source
delivers, up to its first end token at most, each with its place. -/
structure Buffers (source : TokenSource) (s : TokenStream) : Prop where
  isPrefix : s.buffer.toList <+: numberFrom 0 source.upToEnd
  map_index : s.buffer.toList.map Token.index = List.range s.buffer.size
  countP_isEnd : s.buffer.toList.countP Token.isEnd ≤ 1
  cursor_lt : ∀ i, s.cursor = some i → i < s.buffer.size

/-- There is one end token at most in the first tokens of a stream. -/
theorem Ordered.countP_isEnd_le {tokens before : List Token} (h : Ordered tokens)
    (hbefore : before <+: tokens) : before.countP Token.isEnd ≤ 1 := by
  have hne : tokens ≠ [] := List.ne_nil_of_length_pos h.length_pos
  have hnone : tokens.dropLast.countP Token.isEnd = 0 := by
    rw [List.countP_eq_zero]
    intro t ht
    obtain ⟨j, hj, rfl⟩ := List.getElem_of_mem ht
    have hlast := h.isEnd_iff j (tokens.dropLast[j]) (by
      rw [← List.getElem?_eq_getElem hj, List.getElem?_dropLast]
      simp at hj
      simp [hj])
    simp only [List.length_dropLast] at hj
    rw [hlast]
    omega
  refine Nat.le_trans hbefore.sublist.countP_le ?_
  rw [← List.dropLast_concat_getLast hne, List.countP_append, hnone, Nat.zero_add]
  exact List.countP_le_length

theorem Sound.buffers {source : TokenSource} {s : TokenStream} (h : s.Sound)
    (hcontents : s.contents = numberFrom 0 source.upToEnd) : Buffers source s := by
  have hprefix : s.buffer.toList <+: s.contents := List.prefix_append _ _
  refine ⟨hcontents ▸ hprefix, ?_, h.ordered.countP_isEnd_le hprefix, h.cursor_lt⟩
  apply List.ext_getElem
  · simp
  · intro j hj _
    simp only [List.length_map, Array.length_toList] at hj
    have hat := getElem?_buffer hj
    rw [Array.getElem?_eq_getElem hj] at hat
    have hindex := h.ordered.index_eq j s.buffer[j] hat.symm
    simpa using hindex

/-- **Lazy buffering** cannot be observed: the answers to any operations are those of
the stream that was filled beforehand, and at every moment the buffer holds a first
part of what the source delivers. -/
theorem answers_fill (tokens : List Token) (channels : ChannelSet) (ops : List Operation) :
    (ofSource (.ofTokens tokens) channels).fill.answers ops
        = (ofSource (.ofTokens tokens) channels).answers ops ∧
      ∀ n, Buffers (.ofTokens tokens) ((ofSource (.ofTokens tokens) channels).run (ops.take n)) ∧
        Buffers (.ofTokens tokens)
          ((ofSource (.ofTokens tokens) channels).fill.run (ops.take n)) := by
  have hsound := sound_ofSource (.ofTokens tokens) channels
  have hgrows : Grows (ofSource (.ofTokens tokens) channels)
    (ofSource (.ofTokens tokens) channels).fill := grows_fetch _ _
  have hfilled := hsound.of_grows hgrows
  constructor
  · rw [answers_eq hfilled, answers_eq hsound, hgrows.view_eq]
  · intro n
    constructor
    · refine (hsound.run _).buffers ?_
      rw [contents_run hsound, contents_ofSource]
    · refine (hfilled.run _).buffers ?_
      rw [contents_run hfilled, hgrows.contents_eq, contents_ofSource]

end TokenStream

end QueryAudit
