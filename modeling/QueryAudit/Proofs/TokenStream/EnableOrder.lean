import QueryAudit.Proofs.TokenStream.Rewind

/-!
# QueryAudit.Proofs.TokenStream.EnableOrder

The order in which channels are enabled.  The first of them that was not active takes the
cursor back to its place of rest, behind a token that is visible from then on; the others
find it there and leave it.  So two lists with the same channels lead to one stream, but
for the order in which the set of active channels lists its members, and no operation but
the one that asks for that list can tell the difference.

* `ChannelSet.alike_foldl_insert` — the sets that two such lists lead to;
* `Alike.step`, `Alike.answers` — streams that differ in that order answer alike;
* `Sound.cursor_run_enable` — where a list of enabled channels takes the cursor;
* `enable_order` — two lists with the same channels.
-/

namespace QueryAudit

/-! ## sets with the same channels -/

namespace ChannelSet

/-- The sets have the same channels, in whatever order they were added. -/
def Alike (s s' : ChannelSet) : Prop := s.channels.Perm s'.channels

variable {s s' : ChannelSet}

theorem Alike.contains_eq (h : s.Alike s') (c : Channel) : s.contains c = s'.contains c := by
  rw [contains, contains, Bool.eq_iff_iff, List.contains_iff_mem, List.contains_iff_mem]
  exact h.mem_iff

theorem Alike.insert (h : s.Alike s') (c : Channel) : (s.insert c).Alike (s'.insert c) := by
  rw [ChannelSet.insert, ChannelSet.insert, h.contains_eq c]
  split
  · exact h
  · exact h.append_right [c]

theorem Alike.erase (h : s.Alike s') (c : Channel) : (s.erase c).Alike (s'.erase c) :=
  h.filter _

/-- Adding channels puts those that are missing behind the others, each of them once. -/
theorem channels_foldl_insert (s : ChannelSet) (cs : List Channel) :
    ∃ added, (cs.foldl insert s).channels = s.channels ++ added ∧ added.Nodup ∧
      ∀ c, c ∈ added ↔ c ∈ cs ∧ c ∉ s.channels := by
  induction cs generalizing s with
  | nil => exact ⟨[], by simp⟩
  | cons d cs ih =>
      rw [List.foldl_cons]
      obtain ⟨added, hchannels, hnodup, hmem⟩ := ih (s.insert d)
      by_cases hd : d ∈ s.channels
      · have hinsert : s.insert d = s := if_pos (List.contains_iff_mem.2 hd)
        rw [hinsert] at hchannels hmem ⊢
        refine ⟨added, hchannels, hnodup, fun c => ?_⟩
        rw [hmem]
        by_cases hc : c = d
        · simp [hc, hd]
        · simp [hc]
      · have hinsert : s.insert d = ⟨s.channels ++ [d]⟩ := if_neg (mt List.contains_iff_mem.1 hd)
        rw [hinsert] at hchannels hmem ⊢
        refine ⟨d :: added, by simpa using hchannels, ?_, fun c => ?_⟩
        · exact List.nodup_cons.2 ⟨by simp [hmem], hnodup⟩
        · rw [List.mem_cons, hmem]
          by_cases hc : c = d
          · simp [hc, hd]
          · simp [hc]

/-- **Lists with the same channels** lead to sets with the same channels. -/
theorem alike_foldl_insert (s : ChannelSet) {cs ds : List Channel} (h : ∀ c, c ∈ cs ↔ c ∈ ds) :
    (cs.foldl insert s).Alike (ds.foldl insert s) := by
  obtain ⟨added, hchannels, hnodup, hmem⟩ := channels_foldl_insert s cs
  obtain ⟨added', hchannels', hnodup', hmem'⟩ := channels_foldl_insert s ds
  have hperm : added.Perm added' := by
    rw [List.perm_ext_iff_of_nodup hnodup hnodup']
    intro c
    rw [hmem, hmem', h]
  rw [Alike, hchannels, hchannels']
  exact hperm.append_left _

end ChannelSet

namespace TokenStream

/-! ## streams that differ in the order of their channels -/

/-- The streams are the same but for the order of their active channels. -/
structure Alike (s s' : TokenStream) : Prop where
  source_eq : s.source = s'.source
  buffer_eq : s.buffer = s'.buffer
  cursor_eq : s.cursor = s'.cursor
  ended_eq : s.ended = s'.ended
  channels : s.channels.Alike s'.channels

/-- The answers are the same but for the order of listed channels. -/
inductive Answer.Agrees : Answer → Answer → Prop
  | refl (a : Answer) : Answer.Agrees a a
  | channels {channels channels' : ChannelSet} (h : channels.Alike channels') :
      Answer.Agrees (.channels channels) (.channels channels')

theorem Answer.Agrees.of_eq {a b : Answer} (h : a = b) : a.Agrees b := h ▸ .refl a

namespace Alike

variable {s s' : TokenStream}

theorem isVisible_eq (h : s.Alike s') : s.isVisible = s'.isVisible := by
  funext t
  rw [TokenStream.isVisible, TokenStream.isVisible, h.channels.contains_eq]

theorem setCursor (h : s.Alike s') (cursor : Option Nat) :
    Alike { s with cursor } { s' with cursor } :=
  ⟨h.source_eq, h.buffer_eq, rfl, h.ended_eq, h.channels⟩

theorem fetch (h : s.Alike s') (n : Nat) : (fetch n s).Alike (fetch n s') := by
  induction n generalizing s s' with
  | zero => exact h
  | succ n ih =>
      rw [TokenStream.fetch, TokenStream.fetch, ← h.ended_eq, ← h.source_eq, ← h.buffer_eq]
      split
      · exact h
      · exact ih ⟨rfl, rfl, h.cursor_eq, rfl, h.channels⟩

theorem sync (h : s.Alike s') (i : Nat) : (s.sync i).Alike (s'.sync i) := by
  rw [TokenStream.sync, TokenStream.sync, ← h.buffer_eq]
  split
  · exact h
  · exact h.fetch _

theorem fill (h : s.Alike s') : s.fill.Alike s'.fill := by
  rw [TokenStream.fill, TokenStream.fill, unread, unread, ← h.ended_eq, ← h.source_eq]
  exact h.fetch _

theorem nextVisible (h : s.Alike s') (i : Nat) :
    (s.nextVisible i).1.Alike (s'.nextVisible i).1 ∧
      (s.nextVisible i).2 = (s'.nextVisible i).2 := by
  have hsync := h.sync i
  -- the search in `s'` goes the same way, since both see the same tokens
  fun_induction TokenStream.nextVisible s i generalizing s' with
  | case1 s i hi hvisible =>
      rw [hsync.isVisible_eq] at hvisible
      rw [TokenStream.nextVisible]
      simpa only [← hsync.buffer_eq, hi, hvisible, dite_true, if_true, and_true] using hsync
  | case2 s i hi hhidden ih =>
      rw [hsync.isVisible_eq] at hhidden
      rw [TokenStream.nextVisible.eq_def s']
      simp only [← hsync.buffer_eq, hi, hhidden, dite_true]
      exact ih hsync (hsync.sync _)
  | case3 s i hi =>
      rw [TokenStream.nextVisible]
      simpa only [← hsync.buffer_eq, hi, dite_false, and_true] using hsync

theorem start (h : s.Alike s') : s.start.1.Alike s'.start.1 ∧ s.start.2 = s'.start.2 := by
  rw [TokenStream.start, TokenStream.start, ← h.cursor_eq]
  split
  · exact ⟨h, rfl⟩
  · obtain ⟨hnext, hplace⟩ := h.nextVisible 0
    dsimp only
    rw [← hplace]
    exact ⟨hnext.setCursor _, rfl⟩

theorem ahead (h : s.Alike s') (n i : Nat) :
    (ahead n s i).1.Alike (ahead n s' i).1 ∧ (ahead n s i).2 = (ahead n s' i).2 := by
  induction n generalizing s s' i with
  | zero => exact ⟨h, rfl⟩
  | succ n ih =>
      have hsync := h.sync (i + 1)
      obtain ⟨hnext, hplace⟩ := hsync.nextVisible (i + 1)
      rw [TokenStream.ahead, TokenStream.ahead]
      dsimp only
      rw [← hsync.buffer_eq, ← hplace]
      split
      · exact ih hnext _
      · exact ⟨hsync, rfl⟩

theorem lastVisible_eq (h : s.Alike s') (i : Nat) : s.lastVisible i = s'.lastVisible i := by
  induction i with
  | zero => rw [TokenStream.lastVisible, TokenStream.lastVisible, h.buffer_eq, h.isVisible_eq]
  | succ i ih =>
      rw [TokenStream.lastVisible, TokenStream.lastVisible, h.buffer_eq, h.isVisible_eq, ih]

theorem behind_eq (h : s.Alike s') (n i : Nat) : s.behind n i = s'.behind n i := by
  induction n generalizing i with
  | zero => rfl
  | succ n ih =>
      cases i with
      | zero => rfl
      | succ i =>
          rw [behind, behind, h.lastVisible_eq]
          exact Option.bind_congr fun j _ => ih j

/-! ## the operations on such streams -/

theorem lookAhead (h : s.Alike s') (k : Nat) :
    (s.lookAhead k).1.Alike (s'.lookAhead k).1 ∧ (s.lookAhead k).2 = (s'.lookAhead k).2 := by
  obtain ⟨hstart, hplace⟩ := h.start
  cases k with
  | zero => exact ⟨hstart, rfl⟩
  | succ n =>
      obtain ⟨hahead, hshown⟩ := hstart.ahead n s.start.2
      rw [TokenStream.lookAhead, TokenStream.lookAhead]
      dsimp only
      rw [← hplace, ← hshown, hahead.buffer_eq]
      exact ⟨hahead, rfl⟩

theorem lookBehind (h : s.Alike s') (k : Nat) :
    (s.lookBehind k).1.Alike (s'.lookBehind k).1 ∧
      (s.lookBehind k).2 = (s'.lookBehind k).2 := by
  obtain ⟨hstart, hplace⟩ := h.start
  cases k with
  | zero => exact ⟨hstart, rfl⟩
  | succ n =>
      refine ⟨hstart, ?_⟩
      show (s.start.1.behind (n + 1) s.start.2).bind (s.start.1.buffer[·]?)
        = (s'.start.1.behind (n + 1) s'.start.2).bind (s'.start.1.buffer[·]?)
      rw [← hplace, hstart.behind_eq, hstart.buffer_eq]

theorem consume (h : s.Alike s') :
    s.consume.1.Alike s'.consume.1 ∧ s.consume.2 = s'.consume.2 := by
  obtain ⟨hstart, hplace⟩ := h.start
  have hsync := hstart.sync (s.start.2 + 1)
  obtain ⟨hnext, hmoved⟩ := hsync.nextVisible (s.start.2 + 1)
  rw [TokenStream.consume, TokenStream.consume]
  dsimp only
  rw [← hplace, ← hstart.buffer_eq, ← hsync.buffer_eq, ← hmoved]
  split
  · exact ⟨hstart, rfl⟩
  · split
    · exact ⟨hnext.setCursor _, rfl⟩
    · exact ⟨hsync, rfl⟩

theorem seek (h : s.Alike s') (i : Nat) : (s.seek i).Alike (s'.seek i) := by
  obtain ⟨hnext, hplace⟩ := h.start.1.nextVisible i
  rw [TokenStream.seek, TokenStream.seek]
  dsimp only
  rw [← hplace]
  exact hnext.setCursor _

theorem rewindIndex_eq {channels channels' : ChannelSet} (h : channels.Alike channels')
    (tokens : Array Token) (c : Channel) (i : Nat) :
    rewindIndex tokens channels c i = rewindIndex tokens channels' c i := by
  induction i with
  | zero => rfl
  | succ i ih =>
      rw [rewindIndex, rewindIndex, ih]
      simp only [h.contains_eq]

theorem enable (h : s.Alike s') (c : Channel) : (s.enable c).Alike (s'.enable c) := by
  rw [TokenStream.enable, TokenStream.enable, h.channels.contains_eq]
  split
  · exact h
  · refine ⟨h.source_eq, h.buffer_eq, ?_, h.ended_eq, h.channels.insert c⟩
    dsimp only
    simp only [h.buffer_eq, h.cursor_eq, rewindIndex_eq (h.channels.insert c)]

/-- **One operation** leaves such streams as they are to each other, and its answers
agree. -/
theorem step (h : s.Alike s') (op : Operation) :
    (s.step op).1.Alike (s'.step op).1 ∧ (s.step op).2.Agrees (s'.step op).2 := by
  cases op with
  | lookAhead k =>
      obtain ⟨hnext, hshown⟩ := h.lookAhead k
      exact ⟨hnext, .of_eq (congrArg Answer.token hshown)⟩
  | lookBehind k =>
      obtain ⟨hnext, hshown⟩ := h.lookBehind k
      exact ⟨hnext, .of_eq (congrArg Answer.token hshown)⟩
  | lookType k =>
      obtain ⟨hnext, hshown⟩ := h.lookAhead k
      exact ⟨hnext, .of_eq (congrArg (Answer.type ∘ Option.map Token.type) hshown)⟩
  | consume =>
      obtain ⟨hnext, hresult⟩ := h.consume
      exact ⟨hnext, .of_eq (congrArg Answer.result hresult)⟩
  | countActive =>
      have hcount : s.countActive.2 = s'.countActive.2 := by
        rw [countActive, countActive]
        simp only [h.fill.buffer_eq, h.fill.channels.contains_eq]
      exact ⟨h.fill, .of_eq (congrArg Answer.count hcount)⟩
  | index => exact ⟨h, .of_eq (congrArg Answer.place h.cursor_eq)⟩
  | channels => exact ⟨h, .channels h.channels⟩
  | seek i => exact ⟨h.seek i, .refl _⟩
  | fill => exact ⟨h.fill, .refl _⟩
  | enable c => exact ⟨h.enable c, .refl _⟩
  | disable c =>
      exact ⟨⟨h.source_eq, h.buffer_eq, h.cursor_eq, h.ended_eq, h.channels.erase c⟩, .refl _⟩

theorem run (h : s.Alike s') (ops : List Operation) : (s.run ops).Alike (s'.run ops) := by
  induction ops generalizing s s' with
  | nil => exact h
  | cons op ops ih => exact ih (h.step op).1

/-- **The answers** of such streams agree, whatever is asked of them. -/
theorem answers (h : s.Alike s') (ops : List Operation) :
    List.Forall₂ Answer.Agrees (s.answers ops) (s'.answers ops) := by
  induction ops generalizing s s' with
  | nil => exact .nil
  | cons op ops ih =>
      obtain ⟨hnext, hanswer⟩ := h.step op
      exact .cons hanswer (ih hnext)

end Alike

/-! ## enabling a list of channels -/

/-- Enabling channels moves the cursor and adds to the channels, and nothing else. -/
theorem run_enable (s : TokenStream) (cs : List Channel) :
    s.run (cs.map .enable) = { s with
      cursor := (s.run (cs.map .enable)).cursor
      channels := cs.foldl .insert s.channels } := by
  induction cs generalizing s with
  | nil => rfl
  | cons c cs ih =>
      calc (s.enable c).run (cs.map .enable)
        _ = { s.enable c with
              cursor := ((s.enable c).run (cs.map .enable)).cursor
              channels := cs.foldl .insert (s.enable c).channels } := ih (s.enable c)
        _ = { s with
              cursor := ((s.enable c).run (cs.map .enable)).cursor
              channels := cs.foldl .insert (s.channels.insert c) } := by
          simp only [source_enable, buffer_enable, ended_enable, channels_enable]

theorem cursor_run_enable_of_none {s : TokenStream} (hcursor : s.cursor = none)
    (cs : List Channel) : (s.run (cs.map .enable)).cursor = none := by
  induction cs generalizing s with
  | nil => exact hcursor
  | cons c cs ih => exact ih (cursor_enable_of_none hcursor c)

/-- **Enabling channels** leaves the cursor alone when all of them are active.  Otherwise the
first that is not takes it to its place of rest, and there it stays: the token behind it is
visible. -/
theorem Sound.cursor_run_enable {s : TokenStream} (h : s.Sound) {p : Nat}
    (hp : s.cursor = some p) (cs : List Channel) :
    ((∀ c ∈ cs, s.channels.contains c = true) ∧ (s.run (cs.map .enable)).cursor = some p) ∨
      (∃ c ∈ cs, s.channels.contains c = false) ∧
        ∃ i, (s.run (cs.map .enable)).cursor = some i ∧ s.IsRewound p i := by
  induction cs generalizing s p with
  | nil => exact .inl ⟨by simp, hp⟩
  | cons c cs ih =>
      have hrun : s.run ((c :: cs).map .enable) = (s.enable c).run (cs.map .enable) := rfl
      rw [hrun]
      cases hc : s.channels.contains c with
      | true =>
          rw [enable_of_contains hc]
          simpa [hc] using ih h hp
      | false =>
          refine .inr ⟨⟨c, List.mem_cons_self, hc⟩, ?_⟩
          obtain ⟨i, hi, hrest⟩ := h.isRewound_enable hp hc
          -- from here on the place of rest is its own place of rest
          have hstops : i = 0 ∨
              ∃ t, (s.enable c).buffer[i - 1]? = some t ∧ (s.enable c).isVisible t = true := by
            rw [buffer_enable]
            exact hrest.stops.imp_right fun ⟨t, ht, hvisible⟩ => ⟨t, ht, isVisible_enable c hvisible⟩
          obtain ⟨-, hcursor⟩ | ⟨-, k, hcursor, hrest'⟩ := ih (h.enable c).2 hi
          · exact ⟨i, hcursor, hrest⟩
          · rw [(IsRewound.refl hstops).unique hrest'] at hcursor
            exact ⟨i, hcursor, hrest⟩

/-- Lists with the same channels take the cursor to the same place. -/
theorem Sound.cursor_run_enable_eq {s : TokenStream} (h : s.Sound) {cs ds : List Channel}
    (hsame : ∀ c, c ∈ cs ↔ c ∈ ds) :
    (s.run (cs.map .enable)).cursor = (s.run (ds.map .enable)).cursor := by
  cases hp : s.cursor with
  | none => rw [cursor_run_enable_of_none hp, cursor_run_enable_of_none hp]
  | some p =>
      obtain ⟨hall, hcursor⟩ | ⟨⟨c, hc, hnew⟩, i, hcursor, hrest⟩ := h.cursor_run_enable hp cs <;>
      obtain ⟨hall', hcursor'⟩ | ⟨⟨d, hd, hnew'⟩, k, hcursor', hrest'⟩ := h.cursor_run_enable hp ds
      · rw [hcursor, hcursor']
      · rw [hall d ((hsame d).2 hd)] at hnew'
        cases hnew'
      · rw [hall' c ((hsame c).1 hc)] at hnew
        cases hnew
      · rw [hcursor, hcursor', hrest.unique hrest']

/-- **The order of enabling does not matter**: after enabling lists with the same channels the
cursor is at the same place, the buffer is the same and the same channels are active.  Whatever
is done then, the answers agree, and the streams stay the same but for the order of their
channels. -/
theorem enable_order (source : TokenSource) (channels : ChannelSet) (ops : List Operation)
    {cs ds : List Channel} (hsame : ∀ c, c ∈ cs ↔ c ∈ ds) :
    let s := (ofSource source channels).run ops
    let a := s.run (cs.map .enable)
    let b := s.run (ds.map .enable)
    a.cursor = b.cursor ∧ a.buffer = b.buffer ∧
      (∀ c, a.channels.contains c = b.channels.contains c) ∧
      ∀ later, List.Forall₂ Answer.Agrees (a.answers later) (b.answers later) ∧
        (a.run later).Alike (b.run later) := by
  intro s a b
  have hsound : s.Sound := (sound_ofSource _ _).run ops
  have halike : a.Alike b := by
    have ha : a = _ := run_enable s cs
    have hb : b = _ := run_enable s ds
    rw [ha, hb]
    exact ⟨rfl, rfl, hsound.cursor_run_enable_eq hsame, rfl,
      ChannelSet.alike_foldl_insert s.channels hsame⟩
  exact ⟨halike.cursor_eq, halike.buffer_eq, halike.channels.contains_eq, fun later =>
    ⟨halike.answers later, halike.run later⟩⟩

/-- The blank first and then the comment, or the other way round: the sets of channels are not
listed alike, and that is all that an answer can show of it. -/
theorem enable_order_commented :
    let s := (ofSource (.ofTokens commented) .standard).run [.consume]
    let a := s.run ([1, 2, 1].map .enable)
    let b := s.run ([2, 1].map .enable)
    a.cursor = b.cursor ∧ a.channels ≠ b.channels ∧
      List.Forall₂ Answer.Agrees (a.answers [.channels, .lookAhead 2, .disable 1, .lookAhead 2])
        (b.answers [.channels, .lookAhead 2, .disable 1, .lookAhead 2]) := by
  intro s a b
  have hsame : ∀ c : Channel, c ∈ [1, 2, 1] ↔ c ∈ [2, 1] := by
    intro c
    simp only [List.mem_cons, List.not_mem_nil]
    tauto
  obtain ⟨hcursor, -, -, hlater⟩ :=
    enable_order (.ofTokens commented) .standard [.consume] hsame
  exact ⟨hcursor, by decide +kernel, (hlater _).1⟩

end TokenStream

end QueryAudit
