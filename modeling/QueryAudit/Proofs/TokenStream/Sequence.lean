import QueryAudit.Proofs.TokenStream.Visibility

/-!
# QueryAudit.Proofs.TokenStream.Sequence

The visible tokens of a stream as one sequence.  The cursor cuts it in two: what has
been passed, and what is upcoming.  Looking behind reads the one part from its end,
looking ahead reads the other from its front, and consuming moves a token over.

* `View.nextPlace_skips` — a move leaves out hidden tokens only;
* `View.getElem?_ahead`, `View.getElem?_behind` — the two ways along the sequence;
* `View.advance_step`, `advance_run` — what is passed by one operation, and by many;
* `reading_coherent` — looking ahead, looking behind and consuming agree.
-/

namespace QueryAudit

namespace TokenStream

namespace View

variable (v : View)

/-! ## the sequence and its parts -/

/-- The visible tokens before a place. -/
def visibleBefore (i : Nat) : List Token := (v.tokens.take i).filter v.isVisible

/-- The visible tokens from a place on. -/
def visibleFrom (i : Nat) : List Token := (v.tokens.drop i).filter v.isVisible

variable {v}

theorem visibleBefore_succ {i : Nat} {t : Token} (ht : v.tokens[i]? = some t) :
    v.visibleBefore (i + 1) = v.visibleBefore i ++ if v.isVisible t then [t] else [] := by
  rw [visibleBefore, List.take_add_one, ht, List.filter_append]
  cases h : v.isVisible t <;> simp [visibleBefore, h]

theorem visibleFrom_eq {i : Nat} {t : Token} (ht : v.tokens[i]? = some t) :
    v.visibleFrom i = (if v.isVisible t then [t] else []) ++ v.visibleFrom (i + 1) := by
  obtain ⟨hi, rfl⟩ := List.getElem?_eq_some_iff.1 ht
  rw [visibleFrom, List.drop_eq_getElem_cons hi, List.filter_cons]
  cases v.isVisible v.tokens[i] <;> rfl

theorem visibleFrom_of_visible {i : Nat} {t : Token} (ht : v.tokens[i]? = some t)
    (hvisible : v.isVisible t = true) : v.visibleFrom i = t :: v.visibleFrom (i + 1) := by
  rw [visibleFrom_eq ht, hvisible]
  rfl

/-- The last place of the tokens is visible. -/
theorem isVisible_last (h : Ordered v.tokens) {i : Nat} {t : Token} (ht : v.tokens[i]? = some t)
    (hlast : i + 1 = v.tokens.length) : v.isVisible t = true := by
  rw [isVisible, (h.isEnd_iff i t ht).2 hlast]
  rfl

/-- **A move** to the first visible place leaves out hidden tokens only. -/
theorem nextPlace_skips (h : Ordered v.tokens) {i : Nat} (hi : i < v.tokens.length) :
    i ≤ v.nextPlace i ∧ v.visibleFrom (v.nextPlace i) = v.visibleFrom i ∧
      v.visibleBefore (v.nextPlace i) = v.visibleBefore i := by
  -- on the number of tokens from `i` on: the search never leaves the last of them behind
  induction hrest : v.tokens.length - i generalizing i with
  | zero => omega
  | succ rest ih =>
      have ht := List.getElem?_eq_getElem hi
      cases hvisible : v.isVisible v.tokens[i] with
      | true =>
          rw [nextPlace_of_visible ht hvisible]
          exact ⟨Nat.le_refl i, rfl, rfl⟩
      | false =>
          have hmore : i + 1 < v.tokens.length := by
            by_contra hlast
            rw [isVisible_last h ht (by omega)] at hvisible
            cases hvisible
          obtain ⟨hle, hfrom, hbefore⟩ := ih hmore (by omega)
          rw [nextPlace_of_hidden ht hvisible]
          refine ⟨by omega, ?_, ?_⟩
          · rw [hfrom, visibleFrom_eq ht, hvisible]
            rfl
          · rw [hbefore, visibleBefore_succ ht, hvisible]
            exact List.append_nil _

/-! ## along the sequence -/

/-- **Going ahead** from a visible place reads the tokens from there on, and stays at
the last of them. -/
theorem getElem?_ahead (h : Ordered v.tokens) (n : Nat) {i : Nat} {t : Token}
    (ht : v.tokens[i]? = some t) (hvisible : v.isVisible t = true) :
    v.tokens[v.ahead n i]? = (v.visibleFrom i)[min n ((v.visibleFrom i).length - 1)]? := by
  induction n generalizing i t with
  | zero => rw [ahead, ht, visibleFrom_of_visible ht hvisible, Nat.zero_min, List.getElem?_cons_zero]
  | succ n ih =>
      have hi := (List.getElem?_eq_some_iff.1 ht).1
      have hcons := visibleFrom_of_visible ht hvisible
      by_cases hlast : i + 1 = v.tokens.length
      · have hrest : v.visibleFrom (i + 1) = [] := by
          rw [visibleFrom, List.drop_eq_nil_of_le (by omega), List.filter_nil]
        rw [ahead_last hlast, ht, hcons, hrest]
        simp
      · obtain ⟨-, hfrom, -⟩ := nextPlace_skips h (i := i + 1) (by omega)
        obtain ⟨u, hu, hseen⟩ := isVisible_nextPlace h (i + 1)
        have hpos : 0 < (v.visibleFrom (i + 1)).length := by
          rw [← hfrom, visibleFrom_of_visible hu hseen]
          exact Nat.succ_pos _
        have hmin : min (n + 1) (v.visibleFrom (i + 1)).length
            = min n ((v.visibleFrom (i + 1)).length - 1) + 1 := by omega
        rw [ahead, ih hu hseen, hfrom, hcons, List.length_cons, Nat.add_sub_cancel, hmin,
          List.getElem?_cons_succ]

/-- The last visible place before another is that of the last visible token. -/
theorem visibleBefore_of_lastBefore (v : View) (i : Nat) :
    (v.lastBefore i = none ∧ v.visibleBefore i = []) ∨
      ∃ j t, v.lastBefore i = some j ∧ v.tokens[j]? = some t ∧
        v.visibleBefore i = v.visibleBefore j ++ [t] := by
  induction i with
  | zero => exact .inl ⟨rfl, by rw [visibleBefore, List.take_zero, List.filter_nil]⟩
  | succ i ih =>
      rw [lastBefore]
      cases ht : v.tokens[i]? with
      | none =>
          have hsame : v.visibleBefore (i + 1) = v.visibleBefore i := by
            rw [visibleBefore, List.take_add_one, ht, Option.toList_none, List.append_nil]
            rfl
          simpa [hsame] using ih
      | some t =>
          rw [visibleBefore_succ ht, Option.any_some]
          cases hvisible : v.isVisible t with
          | true => exact .inr ⟨i, t, rfl, ht, rfl⟩
          | false => simpa using ih

/-- **Going back** reads the visible tokens before a place from their end. -/
theorem getElem?_behind (v : View) (n i : Nat) :
    (v.behind (n + 1) i).bind (v.tokens[·]?) = (v.visibleBefore i).reverse[n]? := by
  induction n generalizing i with
  | zero =>
      rw [behind]
      obtain ⟨hlast, hnil⟩ | ⟨j, t, hlast, ht, hsplit⟩ := v.visibleBefore_of_lastBefore i
      · simp [hlast, hnil]
      · simp [hlast, hsplit, behind, ht]
  | succ n ih =>
      rw [behind]
      obtain ⟨hlast, hnil⟩ | ⟨j, t, hlast, -, hsplit⟩ := v.visibleBefore_of_lastBefore i
      · simp [hlast, hnil]
      · rw [hlast, Option.bind_some, ih, hsplit, List.reverse_append, List.reverse_singleton,
          List.singleton_append, List.getElem?_cons_succ]

/-! ## the cursor in the sequence -/

variable (v) in
/-- The visible tokens before the current place. -/
def passed : List Token := v.visibleBefore v.place

variable (v) in
/-- The visible tokens from the current place on. -/
def upcoming : List Token := v.visibleFrom v.place

variable (v) in
/-- The current token is one that the consumer sees. -/
def AtVisible : Prop := ∃ t, v.tokens[v.place]? = some t ∧ v.isVisible t = true

theorem AtVisible.length_pos (hat : v.AtVisible) : 0 < v.upcoming.length := by
  obtain ⟨t, ht, hvisible⟩ := hat
  rw [upcoming, visibleFrom_of_visible ht hvisible]
  exact Nat.succ_pos _

/-- **Looking ahead** reads the upcoming tokens, and stays at the last of them. -/
theorem lookAhead_eq (h : Ordered v.tokens) (hat : v.AtVisible) (k : Nat) :
    v.lookAhead (k + 1) = v.upcoming[min k (v.upcoming.length - 1)]? := by
  obtain ⟨t, ht, hvisible⟩ := hat
  exact getElem?_ahead h k ht hvisible

/-- **Looking behind** reads the passed tokens from their end. -/
theorem lookBehind_eq (v : View) (k : Nat) : v.lookBehind (k + 1) = v.passed.reverse[k]? :=
  v.getElem?_behind k v.place

/-- What consuming does at a visible token: at the end token nothing, and at any other it
takes the cursor to the next of the upcoming tokens. -/
theorem consume_cases (h : Ordered v.tokens) (hat : v.AtVisible) :
    (∃ t, v.upcoming = [t] ∧ t.isEnd = true ∧ v.consume = (v.started, .error .atEnd)) ∨
      ∃ t u rest, v.upcoming = t :: u :: rest ∧ t.isEnd = false ∧
        v.consume = ({ v with cursor := some u.index }, .ok ()) ∧ v.place < u.index ∧
        v.tokens[u.index]? = some u ∧ v.isVisible u = true ∧
        v.visibleFrom u.index = u :: rest ∧ v.visibleBefore u.index = v.passed ++ [t] := by
  obtain ⟨t, ht, hvisible⟩ := hat
  have hlt := (List.getElem?_eq_some_iff.1 ht).1
  have hcons : v.upcoming = t :: v.visibleFrom (v.place + 1) := visibleFrom_of_visible ht hvisible
  cases hend : t.isEnd with
  | true =>
      refine .inl ⟨t, ?_, hend, ?_⟩
      · have hlast := (h.isEnd_iff _ t ht).1 hend
        rw [hcons, visibleFrom, List.drop_eq_nil_of_le (by omega), List.filter_nil]
      · rw [consume, ht, Option.any_some, if_pos hend]
  | false =>
      have hmore : v.place + 1 < v.tokens.length := by
        have hlast := mt (h.isEnd_iff _ t ht).2 (by simp [hend])
        omega
      obtain ⟨hle, hfrom, hbefore⟩ := nextPlace_skips h hmore
      obtain ⟨u, hu, hseen⟩ := isVisible_nextPlace h (v.place + 1)
      have hindex : u.index = v.nextPlace (v.place + 1) := h.index_eq _ u hu
      rw [← hindex] at hle hfrom hbefore hu
      have hrest := visibleFrom_of_visible hu hseen
      refine .inr ⟨t, u, v.visibleFrom (u.index + 1), ?_, hend, ?_, hle, hu, hseen, hrest, ?_⟩
      · rw [hcons, ← hfrom, hrest]
      · rw [consume, ht, Option.any_some, if_neg (by simp [hend]), hindex]
      · rw [hbefore, visibleBefore_succ ht, hvisible]
        rfl

/-! ## steps along the sequence -/

/-- From one view to another the cursor goes over the first `n` of the upcoming tokens, and
there is one left. -/
structure Advances (v v' : View) (n : Nat) : Prop where
  atVisible : v'.AtVisible
  lt_length : n < v.upcoming.length
  passed_eq : v'.passed = v.passed ++ v.upcoming.take n
  upcoming_eq : v'.upcoming = v.upcoming.drop n

theorem Advances.trans {v v' v'' : View} {m n : Nat} (h : v.Advances v' m)
    (h' : v'.Advances v'' n) : v.Advances v'' (m + n) where
  atVisible := h'.atVisible
  lt_length := by
    have hlt := h'.lt_length
    rw [h.upcoming_eq, List.length_drop] at hlt
    omega
  passed_eq := by
    rw [h'.passed_eq, h.passed_eq, h.upcoming_eq, List.take_add, List.append_assoc]
  upcoming_eq := by rw [h'.upcoming_eq, h.upcoming_eq, List.drop_drop]

theorem AtVisible.advances (hat : v.AtVisible) {v' : View} (htokens : v'.tokens = v.tokens)
    (hplace : v'.place = v.place) (hchannels : v'.channels = v.channels) :
    v.Advances v' 0 := by
  have hvisible : v'.isVisible = v.isVisible := by
    unfold isVisible
    rw [hchannels]
  refine ⟨?_, hat.length_pos, ?_, ?_⟩
  · rwa [AtVisible, htokens, hplace, hvisible]
  · rw [passed, passed, visibleBefore, visibleBefore, htokens, hplace, hvisible]
    simp
  · rw [upcoming, upcoming, visibleFrom, visibleFrom, htokens, hplace, hvisible]
    simp

/-- What is `m` ahead after a way over `n` tokens was `m + n` ahead before. -/
theorem Advances.lookAhead_eq {v' : View} {n : Nat} (hadvances : v.Advances v' n)
    (h : Ordered v.tokens) (h' : Ordered v'.tokens) (hat : v.AtVisible) (m : Nat) :
    v'.lookAhead (m + 1) = v.lookAhead (m + 1 + n) := by
  have hlt := hadvances.lt_length
  rw [View.lookAhead_eq h' hadvances.atVisible, hadvances.upcoming_eq, List.getElem?_drop,
    Nat.add_right_comm, View.lookAhead_eq h hat, List.length_drop]
  congr 1
  omega

/-- What is `i` behind after a way over `n` tokens was `n - i + 1` ahead before. -/
theorem Advances.lookBehind_eq {v' : View} {n : Nat} (hadvances : v.Advances v' n)
    (h : Ordered v.tokens) (hat : v.AtVisible) {i : Nat} (hi : 1 ≤ i) (hn : i ≤ n) :
    v'.lookBehind i = v.lookAhead (n - i + 1) := by
  have hlt := hadvances.lt_length
  obtain ⟨i, rfl⟩ := Nat.exists_eq_add_of_le' hi
  rw [View.lookBehind_eq, hadvances.passed_eq, View.lookAhead_eq h hat, List.reverse_append,
    List.getElem?_append_left (by simp; omega), List.getElem?_reverse (by simp; omega),
    List.length_take, List.getElem?_take]
  rw [if_pos (by omega)]
  congr 1
  omega

end View

/-! ## runs along the sequence -/

/-- Whether an answer says that a token has been consumed. -/
def Answer.isConsumed : Answer → Bool
  | .result (.ok ()) => true
  | _ => false

/-- How many tokens operations have consumed. -/
def consumed (s : TokenStream) (ops : List Operation) : Nat :=
  (s.answers ops).countP Answer.isConsumed

/-- **One operation** that is no seek and changes no channels goes over the token that it
consumes, if any. -/
theorem View.advance_step {v : View} (h : Ordered v.tokens) (hat : v.AtVisible) {op : Operation}
    (hop : op = .consume ∨ op.isQuiet = true) :
    v.Advances (v.step op).1 (if (v.step op).2.isConsumed then 1 else 0) := by
  cases op with
  | consume =>
      obtain ⟨t, -, -, hconsume⟩ | ⟨t, u, rest, hupcoming, -, hconsume, -, hu, hseen, hfrom,
        hbefore⟩ := v.consume_cases h hat
      · rw [step, hconsume]
        exact hat.advances rfl rfl rfl
      · rw [step, hconsume]
        refine ⟨⟨u, hu, hseen⟩, ?_, ?_, ?_⟩
        · simp [hupcoming, Answer.isConsumed]
        · rw [hupcoming]
          exact hbefore
        · rw [hupcoming]
          exact hfrom
  | lookAhead k | lookBehind k | lookType k => exact hat.advances rfl rfl rfl
  | fill | countActive | index | channels => exact hat.advances rfl rfl rfl
  | seek i | enable c | disable c => simp [Operation.isQuiet] at hop

/-- **A run** without seeks and changes of channels goes over the tokens that it consumes. -/
theorem advance_run {s : TokenStream} (h : s.Sound) (hat : s.view.AtVisible)
    {ops : List Operation} (hops : ∀ op ∈ ops, op = .consume ∨ op.isQuiet = true) :
    s.view.Advances (s.run ops).view (s.consumed ops) := by
  induction ops generalizing s with
  | nil => exact hat.advances rfl rfl rfl
  | cons op ops ih =>
      obtain ⟨hstep, hsound⟩ := step_spec h op
      have hone := s.view.advance_step h.ordered hat (hops op List.mem_cons_self)
      rw [← hstep] at hone
      have hrest := ih hsound hone.atVisible fun op' hop' => hops op' (List.mem_cons_of_mem _ hop')
      -- the way of the run is that of its first operation, and from there that of the others
      have hcount : s.consumed (op :: ops)
          = (if (s.step op).2.isConsumed then 1 else 0) + (s.step op).1.consumed ops := by
        rw [consumed, answers, List.countP_cons, Nat.add_comm]
        rfl
      rw [run_cons, hcount]
      exact hone.trans hrest

/-- Consuming again and again takes the tokens one after the other, and then it fails. -/
theorem answers_replicate_consume {s : TokenStream} (h : s.Sound) (hat : s.view.AtVisible)
    (n : Nat) :
    s.answers (List.replicate n .consume)
      = List.replicate (min n (s.view.upcoming.length - 1)) (.result (.ok ()))
        ++ List.replicate (n - (s.view.upcoming.length - 1)) (.result (.error .atEnd)) := by
  induction n generalizing s with
  | zero => simp [answers]
  | succ n ih =>
      obtain ⟨hstep, hsound⟩ := step_spec h .consume
      have hone := s.view.advance_step h.ordered hat (.inl rfl)
      rw [← hstep] at hone
      have hanswer : (s.step .consume).2 = .result s.view.consume.2 := congrArg Prod.snd hstep
      rw [List.replicate_succ, answers, ih hsound hone.atVisible, hone.upcoming_eq,
        List.length_drop, hanswer]
      obtain ⟨t, hupcoming, -, hconsume⟩ | ⟨t, u, rest, hupcoming, -, hconsume, -⟩ :=
        s.view.consume_cases h.ordered hat
      · simp [hupcoming, hconsume, Answer.isConsumed, List.replicate_succ]
      · simp only [hupcoming, hconsume, Answer.isConsumed, List.length_cons, if_true]
        rw [show min (n + 1) (rest.length + 1 + 1 - 1) = min n (rest.length + 1 + 1 - 1 - 1) + 1 by
            omega,
          show n + 1 - (rest.length + 1 + 1 - 1) = n - (rest.length + 1 + 1 - 1 - 1) by omega,
          List.replicate_succ, List.cons_append]

/-! ## coherence -/

/-- The sequence of upcoming tokens ends with the end token. -/
theorem View.isEnd_getLast?_visibleFrom {v : View} (h : Ordered v.tokens) {i : Nat}
    (hi : i < v.tokens.length) : (v.visibleFrom i).getLast?.any Token.isEnd = true := by
  have hne : v.tokens ≠ [] := List.ne_nil_of_length_pos h.length_pos
  have hend : (v.tokens.getLast hne).isEnd = true := by
    refine (h.isEnd_iff (v.tokens.length - 1) _ ?_).2 (by omega)
    rw [List.getLast_eq_getElem, List.getElem?_eq_getElem]
  have hvisible : v.isVisible (v.tokens.getLast hne) = true := by simp [isVisible, hend]
  have hsplit : v.tokens.drop i = v.tokens.dropLast.drop i ++ [v.tokens.getLast hne] := by
    conv_lhs => rw [← List.dropLast_concat_getLast hne]
    exact List.drop_append_of_le_length (by rw [List.length_dropLast]; omega)
  rw [visibleFrom, hsplit, List.filter_append, List.filter_cons, hvisible, if_pos rfl]
  simp [hend]

/-- A failed consumption is no more than a look. -/
theorem consume_of_error {s : TokenStream} (h : s.consume.2 = .error .atEnd) :
    s.consume.1 = s.start.1 := by
  unfold consume at h ⊢
  dsimp only at h ⊢
  split
  · rfl
  · next hend =>
    rw [if_neg hend] at h
    split at h <;> cases h

/-- A look leaves the stream alone once the cursor is set. -/
theorem start_of_cursor {s : TokenStream} (h : s.cursor ≠ none) : s.start.1 = s := by
  obtain ⟨i, hi⟩ := Option.ne_none_iff_exists'.1 h
  rw [start, hi]

/-- The operations of a consumer go along one sequence of visible tokens. -/
structure Coherent (s : TokenStream) : Prop where
  /-- The sequence ends with the end token. -/
  isEnd_last : s.view.upcoming.getLast?.any Token.isEnd = true
  /-- Looking ahead reads the upcoming tokens, and stays at the last of them. -/
  lookAhead_eq : ∀ k,
    (s.lookAhead (k + 1)).2 = s.view.upcoming[min (k + 1) s.view.upcoming.length - 1]?
  /-- Consuming fails exactly when the current token is the end token. -/
  consume_eq_error_iff :
    s.consume.2 = .error .atEnd ↔ (s.lookAhead 1).2.any Token.isEnd = true
  /-- Then the stream stays as it is, or as the first look leaves it. -/
  consume_of_error : s.consume.2 = .error .atEnd →
    (s.cursor ≠ none → s.consume.1 = s) ∧ s.consume.1 = s.start.1
  /-- Otherwise the cursor moves forward to the next of the upcoming tokens. -/
  consume_of_ok : s.consume.2 ≠ .error .atEnd → ∃ t, s.view.upcoming[1]? = some t ∧
    s.consume.1.current? = some t ∧ s.consume.1.cursor = some t.index ∧ s.view.place < t.index
  /-- What is ahead after consuming was ahead by as many tokens more before. -/
  lookAhead_run : ∀ ops : List Operation, (∀ op ∈ ops, op = .consume ∨ op.isQuiet = true) →
    ∀ m, ((s.run ops).lookAhead (m + 1)).2 = (s.lookAhead (m + 1 + s.consumed ops)).2
  /-- What is behind after consuming is what has been consumed, the last first. -/
  lookBehind_run : ∀ ops : List Operation, (∀ op ∈ ops, op = .consume ∨ op.isQuiet = true) →
    ∀ i, 1 ≤ i → i ≤ s.consumed ops →
      ((s.run ops).lookBehind i).2 = (s.lookAhead (s.consumed ops - i + 1)).2

theorem Sound.atVisible {s : TokenStream} (h : s.Sound)
    (hcurrent : ∀ t, s.current? = some t →
      t.isEnd = true ∨ s.channels.contains t.channel = true) : s.view.AtVisible := by
  cases hcursor : s.cursor with
  | none =>
      have hplace : s.view.place = s.view.nextPlace 0 := by simp [View.place, hcursor]
      rw [View.AtVisible, hplace]
      exact View.isVisible_nextPlace h.ordered 0
  | some i =>
      have hplace : s.view.place = i := by simp [View.place, hcursor]
      have hlt := h.cursor_lt i hcursor
      have hat : s.current? = some s.buffer[i] := by
        rw [current?, hcursor, Option.bind_some, Array.getElem?_eq_getElem hlt]
      refine ⟨s.buffer[i], ?_, by simpa [View.isVisible] using hcurrent _ hat⟩
      rw [hplace, tokens_view, ← getElem?_buffer hlt, Array.getElem?_eq_getElem hlt]

/-- **Consuming** fails at the end token. -/
theorem Sound.consume_eq_error_iff {s : TokenStream} (h : s.Sound) (hat : s.view.AtVisible) :
    s.consume.2 = .error .atEnd ↔ (s.lookAhead 1).2.any Token.isEnd = true := by
  rw [h.consume.2.1, (h.lookAhead 1).2.1, View.lookAhead_eq h.ordered hat 0, Nat.zero_min]
  obtain ⟨t, hupcoming, hend, hconsume⟩ | ⟨t, u, rest, hupcoming, hend, hconsume, -⟩ :=
    s.view.consume_cases h.ordered hat
  · simp [hupcoming, hend, hconsume]
  · simp [hupcoming, hend, hconsume]

/-- **Consuming** at any other visible token takes the cursor to the next one. -/
theorem Sound.consume_of_ok {s : TokenStream} (h : s.Sound) (hat : s.view.AtVisible)
    (hok : s.consume.2 ≠ .error .atEnd) : ∃ t, s.view.upcoming[1]? = some t ∧
      s.consume.1.current? = some t ∧ s.consume.1.cursor = some t.index ∧
      s.view.place < t.index := by
  obtain ⟨hview, hresult, hsound⟩ := h.consume
  rw [hresult] at hok
  obtain ⟨t, -, -, hconsume⟩ | ⟨t, u, rest, hupcoming, -, hconsume, hlt, hu, -⟩ :=
    s.view.consume_cases h.ordered hat
  · exact absurd (congrArg Prod.snd hconsume) hok
  · rw [hconsume] at hview
    have hcursor : s.consume.1.cursor = some u.index := congrArg View.cursor hview
    refine ⟨u, by simp [hupcoming], ?_, hcursor, hlt⟩
    rw [hsound.current?_eq, hview]
    exact hu

/-- **Coherence**: at a visible token looking ahead, looking behind and consuming agree. -/
theorem Sound.coherent {s : TokenStream} (h : s.Sound) (hat : s.view.AtVisible) : s.Coherent where
  isEnd_last := by
    obtain ⟨t, ht, -⟩ := hat
    exact View.isEnd_getLast?_visibleFrom h.ordered (List.getElem?_eq_some_iff.1 ht).1
  lookAhead_eq k := by
    have hpos := hat.length_pos
    rw [(h.lookAhead _).2.1, View.lookAhead_eq h.ordered hat]
    congr 1
    omega
  consume_eq_error_iff := h.consume_eq_error_iff hat
  consume_of_error herror := by
    have hsame := TokenStream.consume_of_error herror
    exact ⟨fun hcursor => hsame.trans (start_of_cursor hcursor), hsame⟩
  consume_of_ok := h.consume_of_ok hat
  lookAhead_run ops hops m := by
    have hrun := advance_run h hat hops
    rw [((h.run ops).lookAhead _).2.1, (h.lookAhead _).2.1]
    exact hrun.lookAhead_eq h.ordered (h.run ops).ordered hat m
  lookBehind_run ops hops i hi hle := by
    have hrun := advance_run h hat hops
    rw [((h.run ops).lookBehind _).2.1, (h.lookAhead _).2.1]
    exact hrun.lookBehind_eq h.ordered hat hi hle

/-- Nothing has been passed by a fresh stream. -/
theorem upcoming_ofSource (source : TokenSource) (channels : ChannelSet) :
    (ofSource source channels).view.upcoming
      = (ofSource source channels).contents.filter (ofSource source channels).isVisible := by
  have hsound := sound_ofSource source channels
  obtain ⟨-, hfrom, -⟩ := View.nextPlace_skips (v := view _) hsound.ordered
    hsound.ordered.length_pos
  have hplace : (ofSource source channels).view.place
      = (ofSource source channels).view.nextPlace 0 := rfl
  rw [View.upcoming, hplace, hfrom, View.visibleFrom, List.drop_zero, tokens_view, isVisible_view]

/-- **Reading a stream**: in every state a look behind shows the visible tokens before the
cursor, and whenever the current token is visible the operations are coherent.  Consuming a
fresh stream again and again comes to each visible token in turn, until the end token, which
cannot be consumed. -/
theorem reading_coherent (source : TokenSource) (channels : ChannelSet) (ops : List Operation) :
    let fresh := ofSource source channels
    let s := fresh.run ops
    let visible := fresh.contents.filter fresh.isVisible
    s.contents = numberFrom 0 source.upToEnd ∧
    (∀ k, (s.lookBehind (k + 1)).2 = s.view.passed.reverse[k]?) ∧
    ((∀ t, s.current? = some t → t.isEnd = true ∨ s.channels.contains t.channel = true) →
      s.Coherent) ∧
    ∀ n, fresh.answers (List.replicate n .consume)
          = List.replicate (min n (visible.length - 1)) (.result (.ok ()))
            ++ List.replicate (n - (visible.length - 1)) (.result (.error .atEnd)) ∧
        ((fresh.run (List.replicate n .consume)).lookAhead 1).2
          = visible[min n (visible.length - 1)]? := by
  intro fresh s visible
  have hfresh : fresh.Sound := sound_ofSource _ _
  have hsound : s.Sound := hfresh.run ops
  refine ⟨?_, ?_, fun hcurrent => hsound.coherent (hsound.atVisible hcurrent), ?_⟩
  · rw [contents_run hfresh, contents_ofSource]
  · intro k
    rw [(hsound.lookBehind _).2.1, View.lookBehind_eq]
  · intro n
    have hat : fresh.view.AtVisible := hfresh.atVisible (by simp [fresh, current?, ofSource])
    have hupcoming : fresh.view.upcoming = visible := upcoming_ofSource _ _
    have hanswers := answers_replicate_consume hfresh hat n
    have hconsumed : fresh.consumed (List.replicate n .consume)
        = min n (fresh.view.upcoming.length - 1) := by
      rw [consumed, hanswers, List.countP_append, List.countP_replicate, List.countP_replicate]
      simp [Answer.isConsumed]
    have hahead := (hfresh.coherent hat).lookAhead_run (List.replicate n .consume)
      (fun op hop => .inl (List.eq_of_mem_replicate hop)) 0
    have hpos := hat.length_pos
    rw [← hupcoming]
    refine ⟨hanswers, ?_⟩
    rw [hahead, hconsumed, Nat.add_comm, (hfresh.coherent hat).lookAhead_eq]
    congr 1
    omega

/-- With the channel of the blank active, the blank follows the first word.  Once it has been
consumed, it is the token behind the cursor. -/
theorem reading_coherent_commented :
    let s := (ofSource (.ofTokens commented) .standard).run [.enable 1, .consume]
    s.Coherent ∧ (s.lookAhead 1).2 = some ⟨2, " ", 1, ⟨1, 2⟩, 2⟩ ∧
      ((s.run [.consume]).lookBehind 1).2 = some ⟨2, " ", 1, ⟨1, 2⟩, 2⟩ := by
  intro s
  have hcurrent : s.current? = some ⟨2, " ", 1, ⟨1, 2⟩, 2⟩ := by decide +kernel
  have hactive : s.channels.contains 1 = true := by decide +kernel
  have hcoherent : s.Coherent :=
    (reading_coherent (.ofTokens commented) .standard [.enable 1, .consume]).2.2.1 fun t ht => by
      rw [hcurrent, Option.some.injEq] at ht
      exact .inr (ht ▸ hactive)
  have hshown : (s.lookAhead 1).2 = some ⟨2, " ", 1, ⟨1, 2⟩, 2⟩ := by decide +kernel
  have hconsumed : s.consumed [.consume] = 1 := by decide +kernel
  refine ⟨hcoherent, hshown, ?_⟩
  rw [hcoherent.lookBehind_run [.consume] (by simp) 1 (Nat.le_refl 1) (Nat.le_of_eq hconsumed.symm),
    hconsumed]
  exact hshown

end TokenStream

end QueryAudit
