import QueryAudit.Tree.Basic

/-!
# QueryAudit.TokenStream.Token

The tokens of a source text, the channels they are routed to, and the sources
that deliver them.

* `contains_insert`, `contains_erase` — sets of channels are sets;
* `isEnd_next`, `length_rest_next` — a source delivers each token once, and end
  tokens from then on.
-/

namespace QueryAudit

/-- The number of a channel; the lexer sends white space and comments to channels
of their own. -/
abbrev Channel := UInt32

/-- The channel of the tokens that a parser reads. -/
def Channel.standard : Channel := 0

/-- A token of a source text. -/
structure Token where
  type : Int
  text : String
  channel : Channel
  position : Position
  /-- The place in the buffer of a stream, once the token is in it. -/
  index : Nat
deriving DecidableEq, Repr

namespace Token

/-- The type of the token that ends every stream. -/
def endType : Int := -1

/-- Whether a token ends the stream. -/
def isEnd (t : Token) : Bool := t.type == endType

/-- The token that ends a stream at a place. -/
def endAt (position : Position) : Token := ⟨endType, "<EOF>", .standard, position, 0⟩

end Token

/-! ## sets of channels -/

/-- A set of channels in the order in which they were added. -/
structure ChannelSet where
  channels : List Channel
deriving DecidableEq, Repr

namespace ChannelSet

/-- The set that holds the standard channel only. -/
def standard : ChannelSet := ⟨[.standard]⟩

instance : Inhabited ChannelSet := ⟨standard⟩

/-- Whether a channel is in the set. -/
def contains (s : ChannelSet) (c : Channel) : Bool := s.channels.contains c

/-- Add a channel; a channel that is there keeps its place. -/
def insert (s : ChannelSet) (c : Channel) : ChannelSet :=
  if s.contains c then s else ⟨s.channels ++ [c]⟩

/-- The set without a channel. -/
def erase (s : ChannelSet) (c : Channel) : ChannelSet := ⟨s.channels.filter (· != c)⟩

/-- The set of the listed channels. -/
def ofList (channels : List Channel) : ChannelSet := channels.foldl insert ⟨[]⟩

@[simp] theorem contains_insert (s : ChannelSet) (c d : Channel) :
    (s.insert c).contains d = (s.contains d || d == c) := by
  unfold insert
  split
  · rename_i h
    by_cases hd : d = c
    · subst hd; simp [h]
    · simp [hd]
  · by_cases hd : d = c <;> simp [contains, hd]

@[simp] theorem contains_erase (s : ChannelSet) (c d : Channel) :
    (s.erase c).contains d = (s.contains d && d != c) := by
  simp only [contains, erase]
  by_cases hd : d = c
  · subst hd; simp
  · simp [hd]

end ChannelSet

/-! ## sources -/

/-- A supply of tokens: those still to be delivered, and the end token that is
delivered from then on. -/
structure TokenSource where
  rest : List Token
  last : Token
  isEnd_last : last.isEnd = true
deriving DecidableEq, Repr

namespace TokenSource

/-- The end token of a list of tokens.  When the list does not end with one, it
is put at the end of the text of the last token. -/
def lastOf (tokens : List Token) : Token :=
  match tokens.getLast? with
  | none => .endAt ⟨1, 0⟩
  | some t =>
    if t.isEnd then t
    else .endAt ⟨t.position.line, t.position.column + UInt32.ofNat t.text.length⟩

theorem isEnd_lastOf (tokens : List Token) : (lastOf tokens).isEnd = true := by
  unfold lastOf
  split
  · rfl
  · split
    · assumption
    · rfl

/-- The source of a list of tokens. -/
def ofTokens (tokens : List Token) : TokenSource := ⟨tokens, lastOf tokens, isEnd_lastOf tokens⟩

/-- The next token, and the source without it. -/
def next (s : TokenSource) : Token × TokenSource :=
  match s.rest with
  | [] => (s.last, s)
  | t :: rest => (t, { s with rest })

/-- Nothing but end tokens comes after the last token. -/
theorem isEnd_next {s : TokenSource} (h : s.rest = []) : s.next.1.isEnd = true := by
  simp [next, h, s.isEnd_last]

/-- Each token is delivered once. -/
theorem length_rest_next (s : TokenSource) : s.next.2.rest.length = s.rest.length - 1 := by
  unfold next
  split <;> simp_all

end TokenSource

end QueryAudit
