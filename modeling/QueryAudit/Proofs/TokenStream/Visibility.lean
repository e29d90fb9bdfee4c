import Mathlib.Data.List.Induction
import QueryAudit.Proofs.TokenStream.Operation

/-!
# QueryAudit.Proofs.TokenStream.Visibility

Which tokens a lookahead shows.  A stream looks for a visible token when its cursor
moves, not when it is read: a cursor that is left on a token by a change of the
active channels stays there until it moves again, and the token is shown although
it is hidden.

* `View.isVisible_nextPlace` — a cursor that moves comes to a visible token;
* `stranded_step` — what one operation does to a cursor on a hidden token;
* `isVisible_lookAhead_iff` — when a lookahead shows a hidden token.
-/

namespace QueryAudit

namespace TokenStream

/-! ## moves come to visible tokens -/

namespace View

variable {v : View}

/-- **A move** comes to a visible token: where there is none left it is the end token. -/
theorem isVisible_nextPlace (h : Ordered v.tokens) (i : Nat) :
    ∃ t, v.tokens[v.nextPlace i]? = some t ∧ v.isVisible t = true := by
  have hpos := h.length_pos
  by_cases hfound : (v.tokens.drop i).findIdx v.isVisible < (v.tokens.drop i).length
  · have hvisible := List.findIdx_getElem (w := hfound)
    have hlength := List.length_drop (i := i) (l := v.tokens)
    have hplace : v.nextPlace i = i + (v.tokens.drop i).findIdx v.isVisible := by
      rw [nextPlace]
      omega
    rw [List.getElem_drop] at hvisible
    refine ⟨_, ?_, hvisible⟩
    rw [hplace, List.getElem?_eq_getElem]
  · have hlength := List.length_drop (i := i) (l := v.tokens)
    have hplace : v.nextPlace i = v.tokens.length - 1 := by
      rw [nextPlace]
      omega
    have hlast : v.tokens.length - 1 < v.tokens.length := by omega
    refine ⟨v.tokens[v.tokens.length - 1], ?_, ?_⟩
    · rw [hplace, List.getElem?_eq_getElem hlast]
    · have hend := (h.isEnd_iff _ _ (List.getElem?_eq_getElem hlast)).2 (by omega)
      simp [isVisible, hend]

/-- So does every way that goes ahead at all. -/
theorem isVisible_ahead (h : Ordered v.tokens) (n i : Nat) :
    ∃ t, v.tokens[v.ahead (n + 1) i]? = some t ∧ v.isVisible t = true := by
  induction n generalizing i with
  | zero => exact isVisible_nextPlace h (i + 1)
  | succ n ih => exact ih (v.nextPlace (i + 1))

/-- The token under the cursor. -/
def current? (v : View) : Option Token := v.cursor.bind (v.tokens[·]?)

/-- The cursor is on a token that the consumer does not see. -/
def Stranded (v : View) (t : Token) : Prop := v.current? = some t ∧ v.isVisible t = false

theorem not_stranded_of_visible {t u : Token} (hu : v.current? = some u)
    (hvisible : v.isVisible u = true) : ¬v.Stranded t := by
  rintro ⟨ht, hhidden⟩
  rw [hu, Option.some.injEq] at ht
  rw [ht, hhidden] at hvisible
  cases hvisible

theorem not_stranded_moveTo (h : Ordered v.tokens) (i : Nat) (t : Token) :
    ¬{ v with cursor := some (v.nextPlace i) }.Stranded t := by
  obtain ⟨u, hu, hvisible⟩ := isVisible_nextPlace h i
  exact not_stranded_of_visible hu hvisible

/-- The first look at a stream comes to a visible token, and a later one leaves the
cursor where it is. -/
theorem stranded_started (h : Ordered v.tokens) (t : Token) :
    v.started.Stranded t ↔ v.Stranded t := by
  cases hcursor : v.cursor with
  | none =>
      have hplace : v.place = v.nextPlace 0 := by simp [place, hcursor]
      rw [started, hplace]
      simp only [not_stranded_moveTo h 0 t, false_iff]
      simp [Stranded, current?, hcursor]
  | some i =>
      have hplace : v.place = i := by simp [place, hcursor]
      rw [started, hplace, ← hcursor]

/-- The end token is visible, and every other move goes on to a visible token. -/
theorem not_stranded_consume (h : Ordered v.tokens) (t : Token) : ¬v.consume.1.Stranded t := by
  rw [consume]
  split
  · next hend =>
    obtain ⟨u, hu, hend⟩ := (Option.any_eq_true _ _).1 hend
    exact not_stranded_of_visible hu (by simp [isVisible, hend])
  · exact not_stranded_moveTo h _ t

/-- **A lookahead** shows a hidden token if it is the one under the cursor. -/
theorem visible_lookAhead_iff (h : Ordered v.tokens) {k : Nat} {t : Token}
    (ht : v.lookAhead k = some t) : v.isVisible t = true ↔ ¬(k = 1 ∧ v.Stranded t) := by
  match k with
  | 0 => cases ht
  | 1 =>
      have hcurrent : v.started.current? = some t := ht
      have hstranded : v.Stranded t ↔ v.isVisible t = false := by
        rw [← stranded_started h t]
        exact and_iff_right hcurrent
      simp [hstranded]
  | n + 2 =>
      obtain ⟨u, hu, hvisible⟩ := isVisible_ahead h n v.place
      rw [lookAhead, hu, Option.some.injEq] at ht
      simp [← ht, hvisible]

end View

/-! ## cursors on hidden tokens -/

/-- The token under the cursor. -/
def current? (s : TokenStream) : Option Token := s.cursor.bind (s.buffer[·]?)

/-- Whether an operation is sure to leave the cursor and the active channels of a
stream alone once the cursor is set. -/
def Operation.isQuiet : Operation → Bool
  | .consume | .seek _ | .enable _ | .disable _ => false
  | _ => true

/-- An operation leaves the cursor on a token that is on no active channel behind it.
Disabling a channel does so when the current token is on that channel, or on none
that is active.  Enabling one does so when the cursor goes back to a token that was
skipped because of another channel. -/
def Operation.Hides (s : TokenStream) (t : Token) : Operation → Prop
  | .disable c => s.current? = some t ∧ t.isEnd = false ∧
      (t.channel = c ∨ s.channels.contains t.channel = false)
  | .enable c => (s.enable c).current? = some t ∧ t.isEnd = false ∧ t.channel ≠ c ∧
      s.channels.contains t.channel = false
  | _ => False

/-- The cursor is on a token that the consumer does not see. -/
def Stranded (s : TokenStream) (t : Token) : Prop := s.current? = some t ∧ s.isVisible t = false

/-- The token under the cursor is in the buffer. -/
theorem Sound.current?_eq {s : TokenStream} (h : s.Sound) : s.current? = s.view.current? :=
  Option.bind_congr fun i hi => getElem?_buffer (h.cursor_lt i hi)

theorem Sound.stranded_iff {s : TokenStream} (h : s.Sound) (t : Token) :
    s.Stranded t ↔ s.view.Stranded t := by
  rw [Stranded, View.Stranded, h.current?_eq, isVisible_view]

theorem stranded_enable (s : TokenStream) (c : Channel) (t : Token) :
    (s.enable c).Stranded t ↔ (Operation.enable c).Hides s t := by
  have hchannels : (s.enable c).channels.contains t.channel
      = (s.channels.contains t.channel || t.channel == c) := by
    rw [enable]
    split
    · next hc =>
      by_cases h : t.channel = c <;> simp_all
    · exact ChannelSet.contains_insert _ _ _
  simp only [Stranded, isVisible, hchannels, Operation.Hides, Bool.or_eq_false_iff,
    beq_eq_false_iff_ne]
  grind

theorem stranded_disable (s : TokenStream) (c : Channel) (t : Token) :
    (s.disable c).Stranded t ↔ (Operation.disable c).Hides s t := by
  have hcurrent : (s.disable c).current? = s.current? := rfl
  rw [Stranded, hcurrent]
  simp only [isVisible, disable, ChannelSet.contains_erase, Operation.Hides,
    Bool.or_eq_false_iff, Bool.and_eq_false_iff, bne_eq_false_iff_eq]
  grind

/-- **One operation** leaves the cursor on a hidden token if it found it there and
does not touch it, or if it hides the token. -/
theorem stranded_step {s : TokenStream} (h : s.Sound) (op : Operation) (t : Token) :
    (s.step op).1.Stranded t ↔ op.isQuiet = true ∧ s.Stranded t ∨ op.Hides s t := by
  obtain ⟨hstep, hsound⟩ := step_spec h op
  have hview : (s.step op).1.view = (s.view.step op).1 := congrArg Prod.fst hstep
  cases op with
  | lookAhead k | lookBehind k | lookType k =>
      rw [hsound.stranded_iff, hview, h.stranded_iff]
      simpa [Operation.isQuiet, Operation.Hides, View.step]
        using View.stranded_started h.ordered t
  | fill | countActive | index | channels =>
      rw [hsound.stranded_iff, hview, h.stranded_iff]
      simp [Operation.isQuiet, Operation.Hides, View.step]
  | seek i =>
      rw [hsound.stranded_iff, hview]
      simp only [Operation.isQuiet, Operation.Hides, Bool.false_eq_true, false_and, or_self,
        iff_false]
      exact View.not_stranded_moveTo h.ordered i t
  | consume =>
      rw [hsound.stranded_iff, hview]
      simp only [Operation.isQuiet, Operation.Hides, Bool.false_eq_true, false_and, or_self,
        iff_false]
      exact View.not_stranded_consume h.ordered t
  | enable c => simpa [Operation.isQuiet, step] using stranded_enable s c t
  | disable c => simpa [Operation.isQuiet, step] using stranded_disable s c t

/-- **A run** leaves the cursor on a hidden token if one of the operations hides the
token and those behind it do not touch the cursor. -/
theorem stranded_run {s : TokenStream} (h : s.Sound) (hcursor : s.cursor = none)
    (ops : List Operation) (t : Token) :
    (s.run ops).Stranded t ↔ ∃ before op after, ops = before ++ op :: after ∧
      op.Hides (s.run before) t ∧ after.all Operation.isQuiet = true := by
  induction ops using List.reverseRecOn with
  | nil => simp [Stranded, current?, hcursor]
  | append_singleton ops last ih =>
      have hlast : s.run (ops ++ [last]) = ((s.run ops).step last).1 := run_append s ops [last]
      rw [hlast, stranded_step (h.run ops), ih]
      constructor
      · rintro (⟨hquiet, before, op, after, rfl, hhides, hafter⟩ | hhides)
        · exact ⟨before, op, after ++ [last], by simp, hhides, by simp_all⟩
        · exact ⟨ops, last, [], rfl, hhides, rfl⟩
      · rintro ⟨before, op, after, heq, hhides, hafter⟩
        rcases List.eq_nil_or_concat after with rfl | ⟨middle, final, rfl⟩
        · obtain ⟨rfl, hop⟩ := List.append_inj' heq rfl
          cases hop
          exact .inr hhides
        · rw [List.concat_eq_append, ← List.cons_append, ← List.append_assoc] at heq
          obtain ⟨rfl, hfinal⟩ := List.append_inj' heq rfl
          cases hfinal
          simp only [List.concat_eq_append, List.all_append, List.all_cons, List.all_nil,
            Bool.and_true, Bool.and_eq_true] at hafter
          exact .inl ⟨hafter.2, before, op, middle, rfl, hhides, hafter.1⟩

/-! ## what a lookahead shows -/

/-- **A lookahead** shows the end token or one on an active channel, but for one case:
the token under the cursor is shown although an operation has hidden it, as long as
the cursor was not touched since. -/
theorem isVisible_lookAhead_iff (tokens : List Token) (channels : ChannelSet)
    (ops : List Operation) (k : Nat) (t : Token)
    (ht : (((ofSource (.ofTokens tokens) channels).run ops).lookAhead k).2 = some t) :
    (t.isEnd = true ∨
        ((ofSource (.ofTokens tokens) channels).run ops).channels.contains t.channel = true) ↔
      ¬(k = 1 ∧ ∃ before op after, ops = before ++ op :: after ∧
        op.Hides ((ofSource (.ofTokens tokens) channels).run before) t ∧
        after.all Operation.isQuiet = true) := by
  have hfresh := sound_ofSource (.ofTokens tokens) channels
  have hsound := hfresh.run ops
  rw [← stranded_run hfresh rfl, hsound.stranded_iff, ← Bool.or_eq_true]
  refine View.visible_lookAhead_iff (v := view _) hsound.ordered ?_
  rw [← (hsound.lookAhead k).2.1, ht]

/-- A word, a comment, a blank and a word, with the comment on channel 2 and the blank
on channel 1. -/
def commented : List Token :=
  [⟨1, "a", 0, ⟨1, 0⟩, 0⟩, ⟨3, "#", 2, ⟨1, 1⟩, 0⟩, ⟨2, " ", 1, ⟨1, 2⟩, 0⟩, ⟨1, "b", 0, ⟨1, 3⟩, 0⟩]

/-- Enabling the channel of the blank takes the cursor back to the comment, which the
next lookahead shows. -/
theorem isVisible_lookAhead_comment :
    (((ofSource (.ofTokens commented) .standard).run [.consume, .enable 1]).lookAhead 1).2
        = some ⟨3, "#", 2, ⟨1, 1⟩, 1⟩ ∧
      ¬((⟨3, "#", 2, ⟨1, 1⟩, 1⟩ : Token).isEnd = true ∨
        ((ofSource (.ofTokens commented) .standard).run [.consume, .enable 1]).channels.contains 2
          = true) := by
  have hshown : (((ofSource (.ofTokens commented) .standard).run [.consume, .enable 1]).lookAhead
      1).2 = some ⟨3, "#", 2, ⟨1, 1⟩, 1⟩ := by decide +kernel
  have hhides : (Operation.enable 1).Hides
      ((ofSource (.ofTokens commented) .standard).run [.consume]) ⟨3, "#", 2, ⟨1, 1⟩, 1⟩ := by
    refine ⟨?_, ?_, ?_, ?_⟩ <;> decide +kernel
  refine ⟨hshown, fun hvisible => ?_⟩
  exact (isVisible_lookAhead_iff commented .standard [.consume, .enable 1] 1 _ hshown).1 hvisible
    ⟨rfl, [.consume], .enable 1, [], rfl, hhides, rfl⟩

end TokenStream

end QueryAudit
