import QueryAudit.Proofs.TokenStream.Sequence

/-!
# QueryAudit.Proofs.TokenStream.Rewind

Where the cursor goes when a channel is enabled.  The scan back asks for tokens on the new
channel or on no active one; these are the tokens that were not visible before, so that the
cursor comes to rest right behind the last token that was.

* `IsRewound` — the place of rest, said of the tokens and of what was visible;
* `Sound.isRewound_enable` — the scan comes to it;
* `enable_rewinds` — what is behind the cursor, and what is ahead of it again.
-/

namespace QueryAudit

namespace TokenStream

/-! ## the place of rest -/

/-- From `p` back to `i` there are hidden tokens only, and before `i` there is a visible one or
none at all. -/
structure IsRewound (s : TokenStream) (p i : Nat) : Prop where
  le : i ≤ p
  hidden : ∀ j, i ≤ j → j < p → ∃ t, s.buffer[j]? = some t ∧ s.isVisible t = false
  stops : i = 0 ∨ ∃ t, s.buffer[i - 1]? = some t ∧ s.isVisible t = true

namespace IsRewound

variable {s : TokenStream} {p i k : Nat}

/-- A visible token before `p` is before the place of rest. -/
theorem lt_of_visible (h : s.IsRewound p i) {j : Nat} {t : Token} (hj : j < p)
    (ht : s.buffer[j]? = some t) (hvisible : s.isVisible t = true) : j < i := by
  by_contra hle
  obtain ⟨u, hu, hhidden⟩ := h.hidden j (by omega) hj
  rw [ht, Option.some.injEq] at hu
  rw [← hu, hvisible] at hhidden
  cases hhidden

theorem le_of_isRewound (h : s.IsRewound p i) (h' : s.IsRewound p k) : k ≤ i := by
  rcases h'.stops with hzero | ⟨t, ht, hvisible⟩
  · omega
  · by_cases hpos : k = 0
    · omega
    · have hle := h'.le
      have hlt := h.lt_of_visible (by omega) ht hvisible
      omega

/-- There is one place of rest. -/
theorem unique (h : s.IsRewound p i) (h' : s.IsRewound p k) : k = i :=
  Nat.le_antisymm (h.le_of_isRewound h') (h'.le_of_isRewound h)

/-- With a hidden token behind it, the place of rest stays the same. -/
theorem succ (h : s.IsRewound p i) {t : Token} (ht : s.buffer[p]? = some t)
    (hhidden : s.isVisible t = false) : s.IsRewound (p + 1) i where
  le := Nat.le_succ_of_le h.le
  hidden j hle hlt := by
    by_cases hj : j = p
    · exact ⟨t, hj ▸ ht, hhidden⟩
    · exact h.hidden j hle (by omega)
  stops := h.stops

/-- Behind a visible token the cursor rests where it is. -/
theorem refl (hstops : p = 0 ∨ ∃ t, s.buffer[p - 1]? = some t ∧ s.isVisible t = true) :
    s.IsRewound p p where
  le := Nat.le_refl p
  hidden j hle hlt := by omega
  stops := hstops

/-- What lies between two places of rest has no visible tokens. -/
theorem visibleBefore_eq (h : s.IsRewound p i) (hp : p ≤ s.buffer.size) :
    s.view.visibleBefore p = s.view.visibleBefore i := by
  obtain ⟨hle, hhidden, -⟩ := h
  induction p with
  | zero => rw [Nat.le_zero.1 hle]
  | succ p ih =>
      by_cases hi : i = p + 1
      · rw [hi]
      · obtain ⟨t, ht, hnot⟩ := hhidden p (by omega) (Nat.lt_succ_self p)
        rw [getElem?_buffer (by omega)] at ht
        rw [View.visibleBefore_succ ht, isVisible_view, hnot,
          ← ih (by omega) (by omega) fun j hle hlt => hhidden j hle (by omega)]
        exact List.append_nil _

end IsRewound

/-! ## the scan -/

/-- The scan passes over a token exactly when it was hidden before. -/
theorem passesOver_eq {s : TokenStream} {c : Channel} (hc : s.channels.contains c = false)
    {t : Token} (hend : t.isEnd = false) :
    (t.channel == c || !(s.channels.insert c).contains t.channel) = !s.isVisible t := by
  rw [ChannelSet.contains_insert, isVisible, hend]
  cases heq : t.channel == c with
  | true => simp [beq_iff_eq.1 heq, hc]
  | false => simp

/-- **The scan back** comes to the place of rest. -/
theorem isRewound_rewindIndex {s : TokenStream} {c : Channel}
    (hc : s.channels.contains c = false) {p : Nat} (hp : p ≤ s.buffer.size)
    (hends : ∀ j t, j < p → s.buffer[j]? = some t → t.isEnd = false) :
    s.IsRewound p (rewindIndex s.buffer (s.channels.insert c) c p) := by
  induction p with
  | zero => exact .refl (.inl rfl)
  | succ p ih =>
      have ht := Array.getElem?_eq_getElem (show p < s.buffer.size by omega)
      rw [rewindIndex, ht]
      simp only [passesOver_eq hc (hends p _ (Nat.lt_succ_self p) ht)]
      -- the test of the scan is the negation of what was visible before the channel was added
      cases hvisible : s.isVisible s.buffer[p] with
      | true => exact .refl (.inr ⟨_, ht, hvisible⟩)
      | false =>
          have hrest := ih (by omega) fun j t hj => hends j t (by omega)
          exact hrest.succ ht hvisible

namespace Sound

variable {s : TokenStream} (h : s.Sound) {p : Nat} (hp : s.cursor = some p)
include h hp

/-- There is no end token before the cursor. -/
theorem isEnd_before {j : Nat} {t : Token} (hj : j < p) (ht : s.buffer[j]? = some t) :
    t.isEnd = false := by
  have hlt := h.cursor_lt p hp
  have hle := size_le_length_contents s
  rw [getElem?_buffer (by omega)] at ht
  have hlast := mt (h.ordered.isEnd_iff j t ht).1 (by omega)
  simpa using hlast

/-- **Enabling** a channel takes the cursor to its place of rest. -/
theorem isRewound_enable {c : Channel} (hc : s.channels.contains c = false) :
    ∃ i, (s.enable c).cursor = some i ∧ s.IsRewound p i := by
  have hlt := h.cursor_lt p hp
  refine ⟨rewindIndex s.buffer (s.channels.insert c) c p, ?_, ?_⟩
  · rw [TokenStream.enable, if_neg (by simp [hc]), hp]
    simp [Nat.min_eq_left (Nat.le_of_lt hlt)]
  · exact isRewound_rewindIndex hc (Nat.le_of_lt hlt) fun j t hj ht => h.isEnd_before hp hj ht

end Sound

/-! ## what is behind the cursor -/

theorem enable_of_contains {s : TokenStream} {c : Channel}
    (hc : s.channels.contains c = true) : s.enable c = s := by
  rw [enable, if_pos hc]

@[simp] theorem source_enable (s : TokenStream) (c : Channel) :
    (s.enable c).source = s.source := by
  rw [enable]
  split <;> rfl

@[simp] theorem buffer_enable (s : TokenStream) (c : Channel) :
    (s.enable c).buffer = s.buffer := by
  rw [enable]
  split <;> rfl

@[simp] theorem ended_enable (s : TokenStream) (c : Channel) :
    (s.enable c).ended = s.ended := by
  rw [enable]
  split <;> rfl

@[simp] theorem channels_enable (s : TokenStream) (c : Channel) :
    (s.enable c).channels = s.channels.insert c := by
  rw [enable]
  split
  · next h => exact (if_pos h).symm
  · rfl

theorem contains_enable (s : TokenStream) (c d : Channel) :
    (s.enable c).channels.contains d = (s.channels.contains d || d == c) := by
  rw [channels_enable, ChannelSet.contains_insert]

/-- Before the first look there is no cursor to move. -/
theorem cursor_enable_of_none {s : TokenStream} (hcursor : s.cursor = none) (c : Channel) :
    (s.enable c).cursor = none := by
  rw [enable, hcursor]
  split
  · exact hcursor
  · rfl

/-- What was visible stays visible. -/
theorem isVisible_enable {s : TokenStream} (c : Channel) {t : Token}
    (hvisible : s.isVisible t = true) : (s.enable c).isVisible t = true := by
  rw [isVisible, Bool.or_eq_true] at hvisible ⊢
  rw [contains_enable]
  rcases hvisible with hend | hactive
  · exact .inl hend
  · exact .inr (by rw [hactive, Bool.true_or])

/-- **The token behind the cursor** is the same before and after a channel is enabled. -/
theorem Sound.lookBehind_enable {s : TokenStream} (h : s.Sound) {p : Nat}
    (hp : s.cursor = some p) {c : Channel} (hc : s.channels.contains c = false) :
    ((s.enable c).lookBehind 1).2 = (s.lookBehind 1).2 := by
  obtain ⟨i, hi, hrest⟩ := h.isRewound_enable hp hc
  have hsound := (h.enable c).2
  have hlt := h.cursor_lt p hp
  have hplace : s.view.place = p := by simp [View.place, hp]
  have hplace' : (s.enable c).view.place = i := by simp [View.place, hi]
  rw [(hsound.lookBehind 1).2.1, (h.lookBehind 1).2.1, View.lookBehind_eq, View.lookBehind_eq,
    View.passed, View.passed, hplace, hplace', hrest.visibleBefore_eq (Nat.le_of_lt hlt)]
  cases i with
  | zero => simp [View.visibleBefore]
  | succ j =>
      rcases hrest.stops with hzero | ⟨t, ht, hvisible⟩
      · cases hzero
      · have hj : j < s.buffer.size := by
          have hle := hrest.le
          omega
        have hat : s.view.tokens[j]? = some t := (getElem?_buffer hj).symm.trans ht
        have hat' : (s.enable c).view.tokens[j]? = some t := by
          rw [tokens_view, ← getElem?_buffer (by simpa using hj), buffer_enable]
          exact ht
        have hseen : (s.enable c).view.isVisible t = true := isVisible_enable c hvisible
        rw [View.visibleBefore_succ hat, View.visibleBefore_succ hat', hseen, isVisible_view,
          hvisible]
        simp

/-- **Enabling rewinds over exactly what was skipped**: the cursor goes back to the one place
behind which a visible token stood, with hidden ones only on the way.  So every token that was
visible behind the cursor is still behind it, the tokens of the channel that were skipped on the
way to the cursor are ahead of it, and the token next behind it is the same.  An active channel
changes nothing, and before the first look there is no cursor to move. -/
theorem enable_rewinds (source : TokenSource) (channels : ChannelSet) (ops : List Operation)
    (c : Channel) :
    let s := (ofSource source channels).run ops
    (∀ p, s.cursor = some p → s.channels.contains c = false →
      ∃ i, (s.enable c).cursor = some i ∧ (∀ k, s.IsRewound p k ↔ k = i) ∧
        (∀ j t, j < p → s.buffer[j]? = some t → s.isVisible t = true → j < i) ∧
        (∀ j t, j < p → s.buffer[j]? = some t → t.channel = c →
          (∀ l u, j < l → l < p → s.buffer[l]? = some u → s.isVisible u = false) → i ≤ j) ∧
        ((s.enable c).lookBehind 1).2 = (s.lookBehind 1).2) ∧
    (∀ d, (s.enable c).channels.contains d = true ↔ s.channels.contains d = true ∨ d = c) ∧
    (s.enable c).buffer = s.buffer ∧
    (s.channels.contains c = true → s.enable c = s) ∧
    (s.cursor = none → (s.enable c).cursor = none) := by
  intro s
  have hsound : s.Sound := (sound_ofSource _ _).run ops
  refine ⟨fun p hp hc => ?_, by simp, buffer_enable s c, enable_of_contains,
    fun hcursor => cursor_enable_of_none hcursor c⟩
  obtain ⟨i, hi, hrest⟩ := hsound.isRewound_enable hp hc
  refine ⟨i, hi, ?_, fun j t => hrest.lt_of_visible, ?_, hsound.lookBehind_enable hp hc⟩
  · intro k
    exact ⟨hrest.unique, fun heq => heq ▸ hrest⟩
  · intro j t hj ht hchannel hbetween
    by_contra hlt
    rcases hrest.stops with hzero | ⟨u, hu, hvisible⟩
    · omega
    · have hle := hrest.le
      -- the token before `i` was visible, so that it is the one at `j`, on the new channel
      have hlast : i - 1 = j := by
        by_contra hne
        rw [hbetween (i - 1) u (by omega) (by omega) hu] at hvisible
        cases hvisible
      rw [hlast, ht, Option.some.injEq] at hu
      rw [← hu, isVisible, hsound.isEnd_before hp hj ht, hchannel, hc] at hvisible
      cases hvisible

/-- From the second word back to the first there are a blank and a comment. -/
theorem enable_rewinds_commented :
    let s := (ofSource (.ofTokens commented) .standard).run [.consume]
    s.cursor = some 3 ∧ s.channels.contains 1 = false ∧ (s.enable 1).cursor = some 1 ∧
      s.IsRewound 3 1 ∧ ((s.enable 1).lookBehind 1).2 = (s.lookBehind 1).2 := by
  intro s
  have hcursor : s.cursor = some 3 := by decide +kernel
  have hnew : s.channels.contains 1 = false := by decide +kernel
  have hmoved : (s.enable 1).cursor = some 1 := by decide +kernel
  obtain ⟨i, hi, hrest, -, -, hbehind⟩ :=
    (enable_rewinds (.ofTokens commented) .standard [.consume] 1).1 3 hcursor hnew
  refine ⟨hcursor, hnew, hmoved, (hrest 1).2 ?_, hbehind⟩
  exact Option.some.inj (hmoved.symm.trans hi)

end TokenStream

end QueryAudit
