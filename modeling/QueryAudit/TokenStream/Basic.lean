import QueryAudit.TokenStream.Token

/-!
# QueryAudit.TokenStream.Basic

A stream of tokens with a set of active channels.  A consumer sees the tokens on
active channels and the end token.  Tokens are taken from the source only when
an operation needs them; enabling a channel moves the cursor back over what was
skipped on the way to it, so that the next lookahead sees it.

* `extent_fetch_le` — taking tokens from the source brings no new ones about;
* `size_le_size_fetch` — nothing leaves the buffer.
-/

namespace QueryAudit

/-- A stream of tokens. -/
structure TokenStream where
  source : TokenSource
  /-- The tokens taken from the source so far. -/
  buffer : Array Token
  /-- The place of the current token, once there is one. -/
  cursor : Option Nat
  /-- Whether the end token is in the buffer. -/
  ended : Bool
  channels : ChannelSet
deriving Repr

/-- The end token cannot be consumed. -/
inductive ConsumeError where
  | atEnd
deriving DecidableEq, Repr

/-- Why the cursor cannot move on. -/
def ConsumeError.message : ConsumeError → String
  | .atEnd => "cannot consume EOF"

/-- Where the cursor goes back to when a channel is enabled: over the tokens
before it that are on that channel or on no active one. -/
def rewindIndex (tokens : Array Token) (channels : ChannelSet) (enabled : Channel) : Nat → Nat
  | 0 => 0
  | i + 1 =>
    match tokens[i]? with
    | none => rewindIndex tokens channels enabled i
    | some t =>
      if t.channel == enabled || !channels.contains t.channel then
        rewindIndex tokens channels enabled i
      else i + 1

namespace TokenStream

/-- A stream that has taken nothing from its source. -/
def ofSource (source : TokenSource) (channels : ChannelSet) : TokenStream :=
  ⟨source, #[], none, false, channels⟩

/-- Whether the consumer sees a token. -/
def isVisible (s : TokenStream) (t : Token) : Bool :=
  t.isEnd || s.channels.contains t.channel

/-! ## filling the buffer -/

/-- Take up to `n` tokens from the source, none after the end token. -/
def fetch : Nat → TokenStream → TokenStream
  | 0, s => s
  | n + 1, s =>
    if s.ended then s
    else
      let (t, source) := s.source.next
      fetch n { s with
        source, buffer := s.buffer.push { t with index := s.buffer.size }, ended := t.isEnd }

/-- Take what is missing so that place `i` is in the buffer, if the source has it. -/
def sync (s : TokenStream) (i : Nat) : TokenStream :=
  if i < s.buffer.size then s else s.fetch (i + 1 - s.buffer.size)

/-- How many tokens the source can still give. -/
def unread (s : TokenStream) : Nat :=
  if s.ended then 0 else s.source.rest.length + 1

/-- Take every token that is left. -/
def fill (s : TokenStream) : TokenStream := s.fetch s.unread

/-- How many tokens there can be in the buffer in the end. -/
def extent (s : TokenStream) : Nat := s.buffer.size + s.unread

theorem extent_fetch_le (n : Nat) (s : TokenStream) : (fetch n s).extent ≤ s.extent := by
  induction n generalizing s with
  | zero => exact Nat.le_refl _
  | succ n ih =>
    unfold fetch
    split
    · exact Nat.le_refl _
    · rename_i h
      refine Nat.le_trans (ih _) ?_
      have hlen := s.source.length_rest_next
      cases hr : s.source.rest with
      | nil => simp [extent, unread, h, hr, s.source.isEnd_last]
      | cons t rest =>
        simp only [extent, unread, Array.size_push, if_neg h, hr, List.length_cons] at hlen ⊢
        split <;> omega

theorem size_le_size_fetch (n : Nat) (s : TokenStream) :
    s.buffer.size ≤ (fetch n s).buffer.size := by
  induction n generalizing s with
  | zero => exact Nat.le_refl _
  | succ n ih =>
    unfold fetch
    split
    · exact Nat.le_refl _
    · exact Nat.le_trans (by simp) (ih _)

theorem extent_sync_le (s : TokenStream) (i : Nat) : (s.sync i).extent ≤ s.extent := by
  unfold sync
  split
  · exact Nat.le_refl _
  · exact extent_fetch_le _ _

/-! ## moving over the buffer -/

/-- The first place from `i` on that the consumer sees, or the last place of all
when there is none. -/
def nextVisible (s : TokenStream) (i : Nat) : TokenStream × Nat :=
  if _h : i < (s.sync i).buffer.size then
    if (s.sync i).isVisible (s.sync i).buffer[i] then (s.sync i, i)
    else nextVisible (s.sync i) (i + 1)
  else (s.sync i, (s.sync i).buffer.size - 1)
termination_by s.extent - i
decreasing_by
  have := extent_sync_le s i
  have : (s.sync i).buffer.size ≤ (s.sync i).extent := Nat.le_add_right _ _
  omega

/-- The last place up to `i` that the consumer sees. -/
def lastVisible (s : TokenStream) : Nat → Option Nat
  | 0 => if (s.buffer[0]?).any s.isVisible then some 0 else none
  | i + 1 => if (s.buffer[i + 1]?).any s.isVisible then some (i + 1) else s.lastVisible i

/-- The cursor; before the first look it is set to the first visible token. -/
def start (s : TokenStream) : TokenStream × Nat :=
  match s.cursor with
  | some i => (s, i)
  | none =>
    let (s, i) := s.nextVisible 0
    ({ s with cursor := some i }, i)

/-- The place `n` visible tokens after place `i`, no further than the end token. -/
def ahead : Nat → TokenStream → Nat → TokenStream × Nat
  | 0, s, i => (s, i)
  | n + 1, s, i =>
    let s := s.sync (i + 1)
    if i + 1 < s.buffer.size then
      let (s, i) := s.nextVisible (i + 1)
      ahead n s i
    else (s, i)

/-- The place `n` visible tokens before place `i`. -/
def behind (s : TokenStream) : Nat → Nat → Option Nat
  | 0, i => some i
  | _ + 1, 0 => none
  | n + 1, i + 1 => (s.lastVisible i).bind (s.behind n)

/-! ## what a consumer does -/

/-- The `k`-th visible token from the cursor on; the first one is the current token. -/
def lookAhead (s : TokenStream) (k : Nat) : TokenStream × Option Token :=
  let (s, i) := s.start
  match k with
  | 0 => (s, none)
  | n + 1 =>
    let (s, i) := ahead n s i
    (s, s.buffer[i]?)

/-- The `k`-th visible token before the cursor. -/
def lookBehind (s : TokenStream) (k : Nat) : TokenStream × Option Token :=
  let (s, i) := s.start
  match k with
  | 0 => (s, none)
  | k => (s, (s.behind k i).bind (s.buffer[·]?))

/-- Move the cursor to the next visible token. -/
def consume (s : TokenStream) : TokenStream × Except ConsumeError Unit :=
  let (s, i) := s.start
  if (s.buffer[i]?).any Token.isEnd then (s, .error .atEnd)
  else
    let s := s.sync (i + 1)
    if i + 1 < s.buffer.size then
      let (s, i) := s.nextVisible (i + 1)
      ({ s with cursor := some i }, .ok ())
    else (s, .ok ())

/-- Move the cursor to the first visible token from place `i` on. -/
def seek (s : TokenStream) (i : Nat) : TokenStream :=
  let (s, _) := s.start
  let (s, i) := s.nextVisible i
  { s with cursor := some i }

/-- Make a channel active.  What was skipped before the cursor because of it lies
ahead of the cursor again. -/
def enable (s : TokenStream) (c : Channel) : TokenStream :=
  if s.channels.contains c then s
  else
    let channels := s.channels.insert c
    { s with
      channels, cursor := s.cursor.map fun i =>
        rewindIndex s.buffer channels c (min i s.buffer.size) }

/-- Make a channel inactive.  The cursor stays. -/
def disable (s : TokenStream) (c : Channel) : TokenStream :=
  { s with channels := s.channels.erase c }

/-- How many tokens up to the end token are on active channels. -/
def countActive (s : TokenStream) : TokenStream × Nat :=
  let s := s.fill
  (s, s.buffer.countP fun t => s.channels.contains t.channel)

end TokenStream

end QueryAudit
