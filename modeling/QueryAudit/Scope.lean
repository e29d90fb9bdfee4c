import QueryAudit.Declaration

/-!
# QueryAudit.Scope

The frames in which names are looked up.  Frames stand in an arena and link to
the frame around them.  The first frame is reserved for what modules export; it
has no parent and is never closed.

* `frameCount_push`, `frameCount_unwind` — how many frames there are.
-/

namespace QueryAudit

/-- A variable or a function that is bound in a frame. -/
inductive Symbol where
  | var (declaration : Declaration)
  | func (function : Function)
deriving DecidableEq, Repr

namespace Symbol

/-- What declares a symbol. -/
def declaration : Symbol → Declaration
  | var d => d
  | func f => f.declaration

/-- The function that a symbol stands for, if it is one. -/
def function? : Symbol → Option Function
  | var _ => none
  | func f => some f

/-- The key under which a symbol is found. -/
def key (s : Symbol) : SymbolKey := s.declaration.key

end Symbol

/-- What a frame belongs to. -/
inductive FrameKind where
  /-- The exports of all modules. -/
  | reserved
  /-- A source unit, or one transaction of it. -/
  | source
  | functionBody
  | flwor
deriving DecidableEq, Repr

/-- A frame with the symbols bound in it and a link to the frame around it. -/
structure Frame where
  kind : FrameKind
  parent : Option Nat
  symbols : Keyed SymbolKey Symbol
deriving DecidableEq, Repr

/-- Bind a symbol under its key. -/
def Frame.define (f : Frame) (s : Symbol) : Frame :=
  { f with symbols := f.symbols.insert s.key s }

/-- The arena of frames and the place of the current one. -/
structure ScopeTable where
  frames : Array Frame
  current : Nat
deriving DecidableEq, Repr

namespace ScopeTable

/-- The table that holds the reserved frame only. -/
def initial : ScopeTable := ⟨#[⟨.reserved, none, .empty⟩], 0⟩

/-- The number of frames in the table, the reserved one included. -/
def frameCount (t : ScopeTable) : Nat := t.frames.size

/-- Open a frame inside the current one. -/
def push (t : ScopeTable) (kind : FrameKind) : ScopeTable :=
  ⟨t.frames.push ⟨kind, some t.current, .empty⟩, t.frames.size⟩

/-- Close the current frame and go back to the one around it, whose place is the
second part.  The reserved frame stays. -/
def pop (t : ScopeTable) : ScopeTable × Option Nat :=
  match (t.frames[t.current]?).bind Frame.parent with
  | none => (t, none)
  | some parent => (⟨t.frames.take t.current, parent⟩, some parent)

/-- Close every frame but the reserved one. -/
def unwind (t : ScopeTable) : ScopeTable := ⟨t.frames.take 1, 0⟩

/-- Bind a symbol in the current frame. -/
def define (t : ScopeTable) (s : Symbol) : ScopeTable :=
  { t with frames := t.frames.modify t.current (·.define s) }

/-- Bind a symbol in the reserved frame. -/
def defineReserved (t : ScopeTable) (s : Symbol) : ScopeTable :=
  { t with frames := t.frames.modify 0 (·.define s) }

/-- The symbol under a key in the frame at a place, or in the nearest frame around
it that has one. -/
def lookupFrom (t : ScopeTable) (key : SymbolKey) (place : Nat) : Option Symbol :=
  match t.frames[place]? with
  | none => none
  | some frame =>
    match frame.symbols.find? key with
    | some s => some s
    | none =>
      match frame.parent with
      | none => none
      | some parent => if parent < place then t.lookupFrom key parent else none

/-- The symbol that a key stands for in the current frame. -/
def lookup (t : ScopeTable) (key : SymbolKey) : Option Symbol := t.lookupFrom key t.current

@[simp] theorem frameCount_push (t : ScopeTable) (kind : FrameKind) :
    (t.push kind).frameCount = t.frameCount + 1 := by
  simp [push, frameCount]

@[simp] theorem frameCount_unwind (t : ScopeTable) : t.unwind.frameCount = min 1 t.frameCount := by
  simp [unwind, frameCount]

@[simp] theorem frameCount_define (t : ScopeTable) (s : Symbol) :
    (t.define s).frameCount = t.frameCount := by
  simp [define, frameCount]

@[simp] theorem frameCount_defineReserved (t : ScopeTable) (s : Symbol) :
    (t.defineReserved s).frameCount = t.frameCount := by
  simp [defineReserved, frameCount]

end ScopeTable

end QueryAudit
