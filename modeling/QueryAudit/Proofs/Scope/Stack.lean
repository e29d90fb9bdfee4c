import QueryAudit.Scope

/-!
# QueryAudit.Proofs.Scope.Stack

The arena of frames is a stack of maps.  `ScopeTable.IsStack` says how the
frames are linked: the current frame is the last of the arena, and the parent of
each frame is the one before it.  Every operation keeps these links, and
`ScopeTable.stack` lists what the frames bind, the innermost first.

* `stack_push`, `stack_pop`, `stack_unwind`, `stack_define`, `stack_defineReserved` — what
  an operation does to the arena is what its name says of a stack;
* `lookup_eq_findSome?`, `lookup_of_shows` — a look-up takes the first frame that has the
  key, and so it finds what is visible;
* `find?_bindAll` — in one frame the last binding of a key counts.
-/

namespace QueryAudit

/-! ## one frame -/

/-- Bind symbols under their keys, one after the other. -/
def bindAll (bindings : Keyed SymbolKey Symbol) (symbols : List Symbol) :
    Keyed SymbolKey Symbol :=
  symbols.foldl (fun bindings s => bindings.insert s.key s) bindings

/-- The last symbol of a list that has a key. -/
def lastUnder (key : SymbolKey) (symbols : List Symbol) : Option Symbol :=
  symbols.reverse.find? (·.key = key)

theorem bindAll_append (bindings : Keyed SymbolKey Symbol) (xs ys : List Symbol) :
    bindAll bindings (xs ++ ys) = bindAll (bindAll bindings xs) ys := by
  simp [bindAll]

theorem lastUnder_cons (key : SymbolKey) (s : Symbol) (symbols : List Symbol) :
    lastUnder key (s :: symbols)
      = (lastUnder key symbols).or (if s.key = key then some s else none) := by
  by_cases h : s.key = key <;> simp [lastUnder, List.find?_append, h]

theorem of_lastUnder_eq_some {key : SymbolKey} {symbols : List Symbol} {s : Symbol}
    (h : lastUnder key symbols = some s) : s ∈ symbols ∧ s.key = key := by
  rw [lastUnder] at h
  exact ⟨List.mem_reverse.1 (List.mem_of_find?_eq_some h), by simpa using List.find?_some h⟩

theorem isSome_lastUnder_iff {key : SymbolKey} {symbols : List Symbol} :
    (lastUnder key symbols).isSome = true ↔ ∃ s ∈ symbols, s.key = key := by
  simp [lastUnder]

/-- **One frame**: the last binding of a key counts, and a key that is not bound
anew keeps its symbol. -/
theorem find?_bindAll (bindings : Keyed SymbolKey Symbol) (symbols : List Symbol)
    (key : SymbolKey) :
    (bindAll bindings symbols).find? key = (lastUnder key symbols).or (bindings.find? key) := by
  induction symbols generalizing bindings with
  | nil => rfl
  | cons s symbols ih =>
      have hstep : bindAll bindings (s :: symbols) = bindAll (bindings.insert s.key s) symbols := rfl
      rw [hstep, ih, lastUnder_cons, Keyed.find?_insert, Option.or_assoc]
      by_cases h : s.key = key <;> simp [h]

namespace ScopeTable

/-! ## links -/

/-- The frames are linked as a stack: the last is the current one, and each lies
on the one before it, down to the reserved one. -/
structure IsStack (t : ScopeTable) : Prop where
  current_add_one : t.current + 1 = t.frames.size
  parent_eq : ∀ (i : Nat) (frame : Frame), t.frames[i]? = some frame →
    frame.parent = if i = 0 then none else some (i - 1)
  kind_eq : ∀ frame : Frame, t.frames[0]? = some frame → frame.kind = .reserved

/-- What the frames bind, the innermost frame first. -/
def stack (t : ScopeTable) : List (Keyed SymbolKey Symbol) :=
  (t.frames.toList.map Frame.symbols).reverse

/-- What the reserved frame binds. -/
def reserved (t : ScopeTable) : Keyed SymbolKey Symbol :=
  ((t.frames[0]?).map Frame.symbols).getD .empty

theorem size_eq_of_stack {t : ScopeTable} {maps : List (Keyed SymbolKey Symbol)}
    (hs : t.stack = maps) : t.frames.size = maps.length := by
  simp [← hs, stack]

theorem map_symbols_of_stack {t : ScopeTable} {maps : List (Keyed SymbolKey Symbol)}
    (hs : t.stack = maps) : t.frames.toList.map Frame.symbols = maps.reverse := by
  simp [← hs, stack]

theorem reserved_of_getElem?_zero {t : ScopeTable} {exports : Keyed SymbolKey Symbol}
    (h : t.frames[0]? = some ⟨.reserved, none, exports⟩) : t.reserved = exports := by
  rw [reserved, h]
  rfl

/-- The table that holds only a reserved frame, with these bindings. -/
def ofExports (exports : Keyed SymbolKey Symbol) : ScopeTable :=
  ⟨#[⟨.reserved, none, exports⟩], 0⟩

theorem isStack_ofExports (exports : Keyed SymbolKey Symbol) : (ofExports exports).IsStack where
  current_add_one := rfl
  parent_eq i frame h := by
    cases i with
    | zero =>
        simp only [ofExports, List.getElem?_toArray, List.getElem?_cons_zero,
          Option.some.injEq] at h
        rw [← h, if_pos rfl]
    | succ i => simp [ofExports] at h
  kind_eq frame h := by
    simp only [ofExports, List.getElem?_toArray, List.getElem?_cons_zero, Option.some.injEq] at h
    rw [← h]

theorem stack_ofExports (exports : Keyed SymbolKey Symbol) :
    (ofExports exports).stack = [exports] := rfl

theorem reserved_ofExports (exports : Keyed SymbolKey Symbol) :
    (ofExports exports).reserved = exports := rfl

/-- The reserved frame is the bottom of the stack. -/
theorem reserved_of_stack {t : ScopeTable} {above : List (Keyed SymbolKey Symbol)}
    {bottom : Keyed SymbolKey Symbol} (hs : t.stack = above ++ [bottom]) :
    t.reserved = bottom := by
  have hhead : (t.frames.toList.map Frame.symbols)[0]? = some bottom := by
    simp [map_symbols_of_stack hs]
  rw [reserved, ← Array.getElem?_toList, ← List.getElem?_map, hhead]
  rfl

/-! ## operations -/

theorem IsStack.push {t : ScopeTable} (h : t.IsStack) (kind : FrameKind) :
    (t.push kind).IsStack where
  current_add_one := by simp [ScopeTable.push]
  parent_eq i frame hf := by
    have hcur := h.current_add_one
    simp only [ScopeTable.push, Array.getElem?_push] at hf
    by_cases hi : i = t.frames.size
    · rw [if_pos hi, Option.some.injEq] at hf
      rw [if_neg (by omega), ← hf]
      simp only [Option.some.injEq]
      omega
    · rw [if_neg hi] at hf
      exact h.parent_eq i frame hf
  kind_eq frame hf := by
    have hcur := h.current_add_one
    rw [ScopeTable.push, Array.getElem?_push, if_neg (by omega)] at hf
    exact h.kind_eq frame hf

theorem stack_push (t : ScopeTable) (kind : FrameKind) :
    (t.push kind).stack = .empty :: t.stack := by
  simp [stack, push]

/-- Only the first frames of an arena are kept; their links stay. -/
theorem IsStack.take {t : ScopeTable} (h : t.IsStack) {n : Nat} (hn : n < t.frames.size) :
    (ScopeTable.mk (t.frames.take (n + 1)) n).IsStack where
  current_add_one := by simp; omega
  parent_eq i frame hf := by
    rw [Array.take_eq_extract, Array.getElem?_extract] at hf
    split at hf
    · exact h.parent_eq i frame (by simpa using hf)
    · contradiction
  kind_eq frame hf := by
    rw [Array.take_eq_extract, Array.getElem?_extract, if_pos (by omega)] at hf
    exact h.kind_eq frame (by simpa using hf)

theorem IsStack.unwind {t : ScopeTable} (h : t.IsStack) : t.unwind.IsStack :=
  h.take (by have := h.current_add_one; omega)

/-- With one frame left there is nothing to close. -/
theorem IsStack.pop_bottom {t : ScopeTable} (h : t.IsStack) {bottom : Keyed SymbolKey Symbol}
    (hs : t.stack = [bottom]) : t.pop = (t, none) := by
  have hlen : t.frames.size = 1 := size_eq_of_stack hs
  have hcur : t.current = 0 := by have := h.current_add_one; omega
  have hnone : (t.frames[t.current]?).bind Frame.parent = none := by
    rw [Option.bind_eq_none_iff]
    intro frame hf
    rw [h.parent_eq t.current frame hf, if_pos hcur]
  rw [ScopeTable.pop, hnone]

/-- With more than one frame the last is given up. -/
theorem IsStack.pop_eq {t : ScopeTable} (h : t.IsStack) {top next : Keyed SymbolKey Symbol}
    {rest : List (Keyed SymbolKey Symbol)} (hs : t.stack = top :: next :: rest) :
    t.pop = (⟨t.frames.take t.current, t.current - 1⟩, some (t.current - 1)) ∧ 0 < t.current := by
  have hcur := h.current_add_one
  have hlen : t.frames.size = rest.length + 2 := size_eq_of_stack hs
  have hlt : t.current < t.frames.size := by omega
  have hparent := h.parent_eq t.current _ (Array.getElem?_eq_getElem hlt)
  rw [if_neg (by omega)] at hparent
  constructor
  · rw [ScopeTable.pop, Array.getElem?_eq_getElem hlt, Option.bind_some, hparent]
  · omega

theorem IsStack.pop {t : ScopeTable} (h : t.IsStack) : t.pop.1.IsStack := by
  have hcur := h.current_add_one
  cases hs : t.stack with
  | nil =>
      have hlen : t.frames.size = 0 := size_eq_of_stack hs
      omega
  | cons top below =>
      cases below with
      | nil => rw [h.pop_bottom hs]; exact h
      | cons next rest =>
          obtain ⟨hpop, hpos⟩ := h.pop_eq hs
          have htake := h.take (n := t.current - 1) (by omega)
          rw [Nat.sub_add_cancel hpos] at htake
          rw [hpop]
          exact htake

theorem stack_take (t : ScopeTable) {n : Nat} (hn : n ≤ t.frames.size) (current : Nat) :
    (ScopeTable.mk (t.frames.take n) current).stack = t.stack.drop (t.frames.size - n) := by
  simp only [stack, Array.take_eq_extract, Array.toList_extract, List.extract_eq_take_drop,
    List.drop_zero, Nat.sub_zero, List.map_take]
  rw [List.drop_reverse, List.length_map, Array.length_toList]
  rw [show t.frames.size - (t.frames.size - n) = n by omega]

theorem stack_pop {t : ScopeTable} (h : t.IsStack) {top next : Keyed SymbolKey Symbol}
    {rest : List (Keyed SymbolKey Symbol)} (hs : t.stack = top :: next :: rest) :
    t.pop.1.stack = next :: rest := by
  have hcur := h.current_add_one
  rw [(h.pop_eq hs).1, stack_take t (by omega), show t.frames.size - t.current = 1 by omega, hs]
  rfl

theorem stack_unwind {t : ScopeTable} {above : List (Keyed SymbolKey Symbol)}
    {bottom : Keyed SymbolKey Symbol} (hs : t.stack = above ++ [bottom]) :
    t.unwind.stack = [bottom] := by
  have hlen : t.frames.size = above.length + 1 := by simp [size_eq_of_stack hs]
  rw [unwind, stack_take t (by omega), hs, show t.frames.size - 1 = above.length by omega,
    List.drop_left]

/-- The first frame of the arena is the bottom of the stack. -/
theorem IsStack.getElem?_zero {t : ScopeTable} (h : t.IsStack)
    {above : List (Keyed SymbolKey Symbol)} {bottom : Keyed SymbolKey Symbol}
    (hs : t.stack = above ++ [bottom]) : t.frames[0]? = some ⟨.reserved, none, bottom⟩ := by
  have hpos : 0 < t.frames.size := by have := h.current_add_one; omega
  obtain ⟨frame, hframe⟩ : ∃ frame, t.frames[0]? = some frame :=
    ⟨_, Array.getElem?_eq_getElem hpos⟩
  have hkind : frame.kind = .reserved := h.kind_eq frame hframe
  have hparent : frame.parent = none := h.parent_eq 0 frame hframe
  have hsymbols : frame.symbols = bottom := by
    rw [← reserved_of_stack hs, reserved, hframe]
    rfl
  rw [hframe, ← hkind, ← hparent, ← hsymbols]

/-- Whatever state an arena is in, its reserved frame is what unwinding leaves. -/
theorem unwind_of_reserved {t : ScopeTable} {exports : Keyed SymbolKey Symbol}
    (h : t.frames[0]? = some ⟨.reserved, none, exports⟩) :
    t.unwind = ofExports exports := by
  have hpos : 0 < t.frames.size := by
    rw [Array.getElem?_eq_some_iff] at h
    exact h.1
  have htake : t.frames.take 1 = #[⟨.reserved, none, exports⟩] := by
    apply Array.ext_getElem?
    intro i
    rw [Array.take_eq_extract, Array.getElem?_extract]
    cases i with
    | zero => rw [if_pos (by omega)]; simpa using h
    | succ i => rw [if_neg (by omega)]; simp
  rw [unwind, htake, ofExports]

/-- Binding a symbol in one of the frames leaves the links as they are. -/
theorem IsStack.modify {t : ScopeTable} (h : t.IsStack) (place : Nat) (s : Symbol) :
    (ScopeTable.mk (t.frames.modify place (·.define s)) t.current).IsStack where
  current_add_one := by simpa using h.current_add_one
  parent_eq i frame hf := by
    simp only [Array.getElem?_modify] at hf
    split at hf
    · obtain ⟨old, hold, rfl⟩ := Option.map_eq_some_iff.1 hf
      exact h.parent_eq i old hold
    · exact h.parent_eq i frame hf
  kind_eq frame hf := by
    simp only [Array.getElem?_modify] at hf
    split at hf
    · obtain ⟨old, hold, rfl⟩ := Option.map_eq_some_iff.1 hf
      exact h.kind_eq old hold
    · exact h.kind_eq frame hf

theorem IsStack.define {t : ScopeTable} (h : t.IsStack) (s : Symbol) : (t.define s).IsStack :=
  h.modify t.current s

theorem IsStack.defineReserved {t : ScopeTable} (h : t.IsStack) (s : Symbol) :
    (t.defineReserved s).IsStack :=
  h.modify 0 s

/-- Changing what one frame binds changes that frame's place in the list. -/
theorem map_symbols_modify (frames : Array Frame) (place : Nat) (s : Symbol) :
    (frames.modify place (·.define s)).toList.map Frame.symbols
      = (frames.toList.map Frame.symbols).modify place (·.insert s.key s) := by
  apply List.ext_getElem?
  intro i
  rw [List.getElem?_map, List.getElem?_modify, List.getElem?_map, Array.getElem?_toList,
    Array.getElem?_toList, Array.getElem?_modify]
  by_cases hi : place = i <;> simp [hi, Frame.define, Function.comp_def]

theorem stack_define {t : ScopeTable} (h : t.IsStack) (s : Symbol)
    {top : Keyed SymbolKey Symbol} {rest : List (Keyed SymbolKey Symbol)}
    (hs : t.stack = top :: rest) : (t.define s).stack = top.insert s.key s :: rest := by
  have hcur := h.current_add_one
  have hmap : t.frames.toList.map Frame.symbols = rest.reverse ++ [top] := by
    rw [map_symbols_of_stack hs, List.reverse_cons]
  have hlen : t.current = rest.reverse.length := by
    have hsize : t.frames.size = rest.length + 1 := size_eq_of_stack hs
    rw [List.length_reverse]
    omega
  simp only [stack, define]
  rw [map_symbols_modify, hmap, hlen, List.modify_eq_take_cons_drop (by simp)]
  simp

theorem stack_defineReserved {t : ScopeTable} (s : Symbol)
    {above : List (Keyed SymbolKey Symbol)} {bottom : Keyed SymbolKey Symbol}
    (hs : t.stack = above ++ [bottom]) :
    (t.defineReserved s).stack = above ++ [bottom.insert s.key s] := by
  have hmap : t.frames.toList.map Frame.symbols = bottom :: above.reverse := by
    rw [map_symbols_of_stack hs, List.reverse_append, List.reverse_singleton,
      List.singleton_append]
  simp only [stack, defineReserved]
  rw [map_symbols_modify, hmap]
  simp

/-- Symbols that are bound one after the other all go to the current frame. -/
theorem stack_foldl_define {t : ScopeTable} (h : t.IsStack) (symbols : List Symbol)
    {top : Keyed SymbolKey Symbol} {rest : List (Keyed SymbolKey Symbol)}
    (hs : t.stack = top :: rest) :
    (symbols.foldl define t).IsStack ∧ (symbols.foldl define t).stack = bindAll top symbols :: rest := by
  induction symbols generalizing t top with
  | nil => exact ⟨h, hs⟩
  | cons s symbols ih => exact ih (h.define s) (stack_define h s hs)

/-! ## look-up -/

/-- From a frame on, the frames below it are searched in turn. -/
theorem lookupFrom_eq {t : ScopeTable} (h : t.IsStack) (key : SymbolKey) (place : Nat)
    (hplace : place < t.frames.size) :
    t.lookupFrom key place
      = ((t.frames.toList.map Frame.symbols).take (place + 1)).reverse.findSome?
          (·.find? key) := by
  induction place with
  | zero =>
      rw [lookupFrom, Array.getElem?_eq_getElem hplace]
      have hparent := h.parent_eq 0 _ (Array.getElem?_eq_getElem hplace)
      rw [if_pos rfl] at hparent
      rw [List.take_succ_eq_append_getElem (by simpa using hplace)]
      simp only [hparent, List.take_zero, List.nil_append, List.getElem_map, Array.getElem_toList,
        List.reverse_singleton, List.findSome?_singleton]
      cases t.frames[0].symbols.find? key <;> rfl
  | succ place ih =>
      rw [lookupFrom, Array.getElem?_eq_getElem hplace]
      have hparent := h.parent_eq (place + 1) _ (Array.getElem?_eq_getElem hplace)
      rw [if_neg (by omega), Nat.add_sub_cancel] at hparent
      rw [List.take_succ_eq_append_getElem (by simpa using hplace)]
      simp only [hparent, List.reverse_append, List.reverse_singleton, List.singleton_append,
        List.findSome?_cons, List.getElem_map, Array.getElem_toList]
      cases t.frames[place + 1].symbols.find? key with
      | some s => rfl
      | none =>
          simp only
          rw [if_pos (by omega)]
          exact ih (by omega)

/-- **Look-up**: the innermost frame that binds the key decides. -/
theorem lookup_eq_findSome? {t : ScopeTable} (h : t.IsStack) (key : SymbolKey) :
    t.lookup key = t.stack.findSome? (·.find? key) := by
  have hcur := h.current_add_one
  rw [lookup, lookupFrom_eq h key t.current (by omega), stack, hcur, List.take_of_length_le]
  simp

/-- A symbol is visible: a frame binds it, and no frame further in binds its key. -/
def Shows (t : ScopeTable) (s : Symbol) : Prop :=
  ∃ inner frame outer, t.stack = inner ++ frame :: outer ∧
    (∀ map ∈ inner, map.find? s.key = none) ∧ frame.find? s.key = some s

/-- **A visible symbol** is found under its key. -/
theorem lookup_of_shows {t : ScopeTable} (h : t.IsStack) {s : Symbol} (hs : t.Shows s) :
    t.lookup s.key = some s := by
  obtain ⟨inner, frame, outer, hstack, hinner, hframe⟩ := hs
  have hnone : inner.findSome? (·.find? s.key) = none := List.findSome?_eq_none_iff.2 hinner
  rw [lookup_eq_findSome? h, hstack, List.findSome?_append, hnone, Option.none_or,
    List.findSome?_cons, hframe]

/-- With the reserved frame alone a look-up finds the exports. -/
theorem lookup_ofExports (exports : Keyed SymbolKey Symbol) (key : SymbolKey) :
    (ofExports exports).lookup key = exports.find? key := by
  rw [lookup_eq_findSome? (isStack_ofExports exports), stack_ofExports,
    List.findSome?_singleton]

end ScopeTable

end QueryAudit
