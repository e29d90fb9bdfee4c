import Mathlib.Logic.Function.Basic
import QueryAudit.Proofs.Scope.Stack

/-!
# QueryAudit.Proofs.Scope.Operation

What can be asked of a table of scopes, as data, and what a plain stack of maps answers to
it.  The stack has no places and no links: its maps are functions, and its bottom map
is a part of its own, so that it cannot be taken away.

* `apply_represents` — a table and a stack that represent the same do so after an operation,
  to which they give the same answer;
* `IsStack.searches` — the search along the links comes to an end at frames that are there;
* `answers_initial` — the answers to any operations, from the table that is new.
-/

namespace QueryAudit

namespace ScopeTable

/-! ## operations and answers -/

/-- What can be asked of a table. -/
inductive Operation where
  | push (kind : FrameKind)
  | pop
  | unwind
  | define (s : Symbol)
  | defineReserved (s : Symbol)
  | lookup (key : SymbolKey)
deriving DecidableEq, Repr

/-- What an operation gives. -/
inductive Result where
  | done
  /-- The place of a new frame. -/
  | place (i : Nat)
  /-- The place of the frame around the one that was closed, if one was. -/
  | parent (i : Option Nat)
  | symbol (s : Option Symbol)
deriving DecidableEq, Repr

/-- What an operation gives, and how many frames there are after it. -/
structure Answer where
  result : Result
  frameCount : Nat
deriving DecidableEq, Repr

/-- Carry out one operation. -/
def apply (t : ScopeTable) : Operation → ScopeTable × Result
  | .push kind => (t.push kind, .place (t.push kind).current)
  | .pop => (t.pop.1, .parent t.pop.2)
  | .unwind => (t.unwind, .done)
  | .define s => (t.define s, .done)
  | .defineReserved s => (t.defineReserved s, .done)
  | .lookup key => (t, .symbol (t.lookup key))

/-- The table after a list of operations. -/
def run (t : ScopeTable) (ops : List Operation) : ScopeTable :=
  ops.foldl (fun t op => (t.apply op).1) t

/-- The answers to a list of operations. -/
def answers (t : ScopeTable) : List Operation → List Answer
  | [] => []
  | op :: ops => ⟨(t.apply op).2, (t.apply op).1.frameCount⟩ :: (t.apply op).1.answers ops

end ScopeTable

/-! ## stacks of maps -/

/-- A stack of maps from keys to symbols, the top first, above one that stays. -/
structure MapStack where
  above : List (SymbolKey → Option Symbol)
  bottom : SymbolKey → Option Symbol

namespace MapStack

open ScopeTable (Operation Answer)

/-- The stack of one map without bindings. -/
def initial : MapStack := ⟨[], fun _ => none⟩

/-- The maps, the top first. -/
def maps (m : MapStack) : List (SymbolKey → Option Symbol) := m.above ++ [m.bottom]

/-- Bind a symbol under its key, in place of what the key was bound to. -/
def bind (s : Symbol) (map : SymbolKey → Option Symbol) : SymbolKey → Option Symbol :=
  Function.update map s.key (some s)

/-- Bind a symbol in the top map. -/
def define (m : MapStack) (s : Symbol) : MapStack :=
  match m.above with
  | [] => { m with bottom := bind s m.bottom }
  | top :: rest => { m with above := bind s top :: rest }

/-- Carry out one operation.  Maps are counted from the bottom, which is at 0. -/
def apply (m : MapStack) : Operation → MapStack × ScopeTable.Result
  | .push _ => ({ m with above := (fun _ => none) :: m.above }, .place m.maps.length)
  | .pop =>
    match m.above with
    | [] => (m, .parent none)
    | _ :: rest => ({ m with above := rest }, .parent (some rest.length))
  | .unwind => ({ m with above := [] }, .done)
  | .define s => (m.define s, .done)
  | .defineReserved s => ({ m with bottom := bind s m.bottom }, .done)
  | .lookup key => (m, .symbol (m.maps.findSome? fun map => map key))

/-- The answers to a list of operations. -/
def answers (m : MapStack) : List Operation → List Answer
  | [] => []
  | op :: ops => ⟨(m.apply op).2, (m.apply op).1.maps.length⟩ :: (m.apply op).1.answers ops

end MapStack

namespace ScopeTable

/-! ## tables as stacks -/

/-- The frames of a table are linked as a stack and bind what the maps say. -/
structure Represents (t : ScopeTable) (m : MapStack) : Prop where
  isStack : t.IsStack
  maps_eq : t.stack.map Keyed.find? = m.maps

theorem represents_initial : initial.Represents .initial :=
  ⟨isStack_ofExports .empty, rfl⟩

theorem find?_insert_eq_bind (bindings : Keyed SymbolKey Symbol) (s : Symbol) :
    (bindings.insert s.key s).find? = MapStack.bind s bindings.find? := by
  funext key
  rw [Keyed.find?_insert, MapStack.bind, Function.update_apply]
  simp only [eq_comm]

namespace Represents

variable {t : ScopeTable} {m : MapStack} (h : t.Represents m)
include h

theorem frameCount_eq : t.frameCount = m.maps.length := by
  rw [← h.maps_eq, List.length_map, frameCount]
  exact size_eq_of_stack rfl

/-- The bottom map is what the reserved frame binds. -/
theorem exists_stack_eq : ∃ above bottom, t.stack = above ++ [bottom] ∧
    above.map Keyed.find? = m.above ∧ bottom.find? = m.bottom := by
  obtain ⟨above, bottoms, hstack, habove, hbottoms⟩ := List.map_eq_append_iff.1 h.maps_eq
  obtain ⟨bottom, rfl, hbottom⟩ := List.map_eq_singleton_iff.1 hbottoms
  exact ⟨above, bottom, hstack, habove, hbottom⟩

theorem push (kind : FrameKind) :
    (t.push kind).Represents { m with above := (fun _ => none) :: m.above } where
  isStack := h.isStack.push kind
  maps_eq := by
    rw [stack_push, List.map_cons, h.maps_eq]
    rfl

theorem unwind : t.unwind.Represents { m with above := [] } where
  isStack := h.isStack.unwind
  maps_eq := by
    obtain ⟨above, bottom, hstack, -, hbottom⟩ := h.exists_stack_eq
    rw [stack_unwind hstack, List.map_singleton, hbottom]
    rfl

theorem define (s : Symbol) : (t.define s).Represents (m.define s) where
  isStack := h.isStack.define s
  maps_eq := by
    obtain ⟨above, bottom, hstack, habove, hbottom⟩ := h.exists_stack_eq
    cases above with
    | nil =>
        rw [stack_define h.isStack s hstack, List.map_singleton, find?_insert_eq_bind, hbottom,
          MapStack.define, ← habove]
        rfl
    | cons top rest =>
        rw [List.cons_append] at hstack
        rw [stack_define h.isStack s hstack, List.map_cons, List.map_append, find?_insert_eq_bind,
          MapStack.define, ← habove, List.map_singleton, hbottom]
        rfl

theorem defineReserved (s : Symbol) :
    (t.defineReserved s).Represents { m with bottom := MapStack.bind s m.bottom } where
  isStack := h.isStack.defineReserved s
  maps_eq := by
    obtain ⟨above, bottom, hstack, habove, hbottom⟩ := h.exists_stack_eq
    rw [stack_defineReserved s hstack, List.map_append, List.map_singleton, find?_insert_eq_bind,
      habove, hbottom]
    rfl

/-- Closing a frame takes the top map away, but not the bottom one. -/
theorem pop : .parent t.pop.2 = (m.apply .pop).2 ∧ t.pop.1.Represents (m.apply .pop).1 := by
  have hcurrent := h.isStack.current_add_one
  obtain ⟨above, bottom, hstack, habove, hbottom⟩ := h.exists_stack_eq
  have hsize : t.frames.size = above.length + 1 := by simp [size_eq_of_stack hstack]
  cases above with
  | nil =>
      have hpop : m.apply .pop = (m, .parent none) := by
        rw [MapStack.apply, ← habove]
        rfl
      rw [hpop, h.isStack.pop_bottom hstack]
      exact ⟨rfl, h⟩
  | cons top rest =>
      have hpop : m.apply .pop
          = ({ m with above := rest.map Keyed.find? }, .parent (some rest.length)) := by
        rw [MapStack.apply, ← habove, List.map_cons]
        simp only [List.length_map]
      obtain ⟨next, below, hbelow⟩ : ∃ next below, rest ++ [bottom] = next :: below :=
        List.exists_cons_of_ne_nil (by simp)
      rw [List.cons_append, hbelow] at hstack
      have hparent : t.current - 1 = rest.length := by
        rw [List.length_cons] at hsize
        omega
      rw [hpop]
      constructor
      · rw [(h.isStack.pop_eq hstack).1, hparent]
      · refine ⟨h.isStack.pop, ?_⟩
        rw [stack_pop h.isStack hstack, ← hbelow, List.map_append, List.map_singleton, hbottom]
        rfl

theorem lookup_eq (key : SymbolKey) : t.lookup key = m.maps.findSome? fun map => map key := by
  rw [lookup_eq_findSome? h.isStack, ← h.maps_eq, List.findSome?_map]
  rfl

end Represents

/-- **One operation** is answered alike by a table and by a stack that say the same, and they
say the same after it. -/
theorem apply_represents {t : ScopeTable} {m : MapStack} (h : t.Represents m) (op : Operation) :
    (t.apply op).2 = (m.apply op).2 ∧ (t.apply op).1.Represents (m.apply op).1 := by
  cases op with
  | push kind => exact ⟨congrArg Result.place h.frameCount_eq, h.push kind⟩
  | pop => exact h.pop
  | unwind => exact ⟨rfl, h.unwind⟩
  | define s => exact ⟨rfl, h.define s⟩
  | defineReserved s => exact ⟨rfl, h.defineReserved s⟩
  | lookup key => exact ⟨congrArg Result.symbol (h.lookup_eq key), h⟩

/-- **The answers** to operations are those of the stack. -/
theorem answers_eq {t : ScopeTable} {m : MapStack} (h : t.Represents m) (ops : List Operation) :
    t.answers ops = m.answers ops := by
  induction ops generalizing t m with
  | nil => rfl
  | cons op ops ih =>
      obtain ⟨hresult, hafter⟩ := apply_represents h op
      rw [answers, MapStack.answers, hresult, hafter.frameCount_eq, ih hafter]

/-- **A run** keeps a table one that represents a stack. -/
theorem exists_represents_run {t : ScopeTable} {m : MapStack} (h : t.Represents m)
    (ops : List Operation) : ∃ m', (t.run ops).Represents m' := by
  induction ops generalizing t m with
  | nil => exact ⟨m, h⟩
  | cons op ops ih => exact ih (apply_represents h op).2

/-! ## the search along the links -/

/-- The search for a key from the frame at a place outwards, which goes on until a frame has
the key or none is around it: each place that it comes to is in the table, and it ends. -/
inductive Searches (t : ScopeTable) (key : SymbolKey) : Nat → Option Symbol → Prop
  | found {place : Nat} {frame : Frame} {s : Symbol} (hframe : t.frames[place]? = some frame)
      (hs : frame.symbols.find? key = some s) : Searches t key place (some s)
  | outer {place parent : Nat} {frame : Frame} {result : Option Symbol}
      (hframe : t.frames[place]? = some frame) (hs : frame.symbols.find? key = none)
      (hparent : frame.parent = some parent) (hrest : Searches t key parent result) :
      Searches t key place result
  | missing {place : Nat} {frame : Frame} (hframe : t.frames[place]? = some frame)
      (hs : frame.symbols.find? key = none) (hparent : frame.parent = none) :
      Searches t key place none

/-- From every frame of a linked table the search comes to an end. -/
theorem IsStack.searches {t : ScopeTable} (h : t.IsStack) (key : SymbolKey) (place : Nat)
    (hplace : place < t.frames.size) : t.Searches key place (t.lookupFrom key place) := by
  have hframe := Array.getElem?_eq_getElem hplace
  have hparent := h.parent_eq place _ hframe
  rw [lookupFrom, hframe]
  dsimp only
  cases hs : t.frames[place].symbols.find? key with
  | some s => exact .found hframe hs
  | none =>
      cases place with
      | zero =>
          rw [if_pos rfl] at hparent
          rw [hparent]
          exact .missing hframe hs hparent
      | succ place =>
          rw [if_neg (by omega), Nat.add_sub_cancel] at hparent
          rw [hparent]
          dsimp only
          rw [if_pos (by omega)]
          exact .outer hframe hs hparent (h.searches key place (by omega))

/-- **The answers** to any operations on a new table, frame counts and places included, are
those of a stack of maps whose bottom stays.  At every moment the frames are linked one on
the other, from the current one, which is the last, down to the reserved one, so that a
search from the current frame comes to its end at frames of the table. -/
theorem answers_initial (ops : List Operation) :
    initial.answers ops = MapStack.initial.answers ops ∧
      ∀ n, (initial.run (ops.take n)).IsStack ∧
        ∀ key, (initial.run (ops.take n)).Searches key (initial.run (ops.take n)).current
          ((initial.run (ops.take n)).lookup key) := by
  refine ⟨answers_eq represents_initial ops, fun n => ?_⟩
  obtain ⟨m, hstack, -⟩ := exists_represents_run represents_initial (ops.take n)
  have hcurrent := hstack.current_add_one
  exact ⟨hstack, fun key => hstack.searches key _ (by omega)⟩

end ScopeTable

end QueryAudit
