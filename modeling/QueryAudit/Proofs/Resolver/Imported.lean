import Mathlib.Data.List.Induction
import QueryAudit.Proofs.Resolver.Lexical

/-!
# QueryAudit.Proofs.Resolver.Imported

Names that come from another module.  A qualifier that is bound by an import leads
to the namespace of the last such import so far.  A unit without a module
declaration declares nothing in a namespace, so that a look-up in one always ends
among the exports.

* `qualifierOf_spelled`, `localName_spelled` — the two parts of a raw name;
* `import?_foldl` — which import a qualifier is bound to;
* `Follows.lookup_foreign` — where a name in a namespace is found;
* `Follows.declaration?_imported` — what a qualified name stands for.
-/

namespace QueryAudit

/-! ## qualified names -/

/-- One part of a qualified name: it has no colon, and no sigil in front. -/
structure IsNamePart (s : String) : Prop where
  not_mem_colon : ':' ∉ s.toList
  head_ne_sigil : s.toList.head? ≠ some '$'

theorem dropSigil_of_head_ne {cs : List Char} (h : cs.head? ≠ some '$') : dropSigil cs = cs := by
  cases cs with
  | nil => rfl
  | cons c cs =>
      rw [List.head?_cons, ne_eq, Option.some.injEq] at h
      unfold dropSigil
      split
      case h_1 heq => exact absurd (List.cons.inj heq).1 h
      case h_2 => rfl

/-- A raw name spells a local name behind a qualifier, with or without the sigil of a
variable. -/
def Spells (name qualifier localPart : String) : Prop :=
  name = qualifier ++ ":" ++ localPart ∨ name = "$" ++ qualifier ++ ":" ++ localPart

section

variable {name qualifier localPart : String} (h : Spells name qualifier localPart)
  (hqualifier : IsNamePart qualifier)
include h hqualifier

theorem cut_spelled :
    cut ':' (dropSigil name.toList) = some (qualifier.toList, localPart.toList) := by
  have hdrop : dropSigil name.toList = qualifier.toList ++ ':' :: localPart.toList := by
    rcases h with rfl | rfl
    · have hhead : (qualifier ++ ":" ++ localPart).toList.head? ≠ some '$' := by
        have hsigil := hqualifier.head_ne_sigil
        rw [String.toList_append, String.toList_append, List.append_assoc]
        cases hchars : qualifier.toList with
        | nil => simp
        | cons c cs =>
            rw [hchars] at hsigil
            exact hsigil
      rw [dropSigil_of_head_ne hhead]
      simp [String.toList_append]
    · simp [String.toList_append, dropSigil]
  rw [hdrop, cut_append_cons hqualifier.not_mem_colon]

theorem qualifierOf_spelled : SymbolTable.qualifierOf name = qualifier := by
  rw [SymbolTable.qualifierOf, cut_spelled h hqualifier]
  exact String.ofList_toList

theorem localName_spelled : localName name = localPart := by
  rw [localName, cut_spelled h hqualifier]
  exact String.ofList_toList

end

/-- A part of a name is its own local name. -/
theorem IsNamePart.localName_eq {s : String} (h : IsNamePart s) : localName s = s := by
  rw [localName, dropSigil_of_head_ne h.head_ne_sigil, cut_eq_none_iff.2 h.not_mem_colon]
  exact String.ofList_toList

/-! ## imports -/

/-- The node that a walk comes to at an event. -/
def Event.entered? : Event → Option Node
  | .enter n => some n
  | _ => none

/-- Whether a node imports a module under a qualifier. -/
def Node.importsUnder (qualifier : String) (n : Node) : Bool :=
  n.is Kind.moduleImport && (n.childByField? Field.qualifier).map Element.text == some qualifier

/-- The last node of a sort that has been come to. -/
def lastEntered? (p : Node → Bool) (events : List Event) : Option Node :=
  ((events.filterMap Event.entered?).filter p).getLast?

/-- The last import under a qualifier that has been come to. -/
def lastImport? (qualifier : String) (events : List Event) : Option Node :=
  ((events.filterMap Event.entered?).filter (·.importsUnder qualifier)).getLast?

theorem lastImport?_eq (qualifier : String) (events : List Event) :
    lastImport? qualifier events = lastEntered? (·.importsUnder qualifier) events := rfl

theorem lastEntered?_append_enter (p : Node → Bool) (events : List Event) (n : Node) :
    lastEntered? p (events ++ [.enter n]) = if p n then some n else lastEntered? p events := by
  rw [lastEntered?, List.filterMap_append, List.filter_append]
  cases hp : p n <;> simp [lastEntered?, Event.entered?, hp]

theorem lastEntered?_append_of_entered?_eq_none (p : Node → Bool) (events : List Event)
    {event : Event} (h : event.entered? = none) :
    lastEntered? p (events ++ [event]) = lastEntered? p events := by
  rw [lastEntered?, List.filterMap_append, List.filterMap_cons, h]
  simp [lastEntered?]

/-- **What only the entry of some nodes sets** is what the last of them has set. -/
theorem LocalResolver.foldl_lastEntered {α : Type} (g : LocalResolver → α) {p : Node → Bool}
    {set : Node → α} (henter : ∀ r n, g (r.enter n) = if p n then set n else g r)
    (hexit : ∀ r n, g (r.exit n) = g r) (r : LocalResolver) {events : List Event}
    (hallows : Trail.start.Allows events) :
    g (events.foldl (fun r event => Resolver.on event r) r)
      = ((lastEntered? p events).map set).getD (g r) := by
  induction events using List.reverseRecOn with
  | nil => rfl
  | append_singleton events event ih =>
      obtain ⟨hbefore, hlast⟩ := (Trail.allows_append _ _ _).1 hallows
      rw [List.foldl_append, List.foldl_cons, List.foldl_nil]
      cases event with
      | enter n =>
          rw [lastEntered?_append_enter]
          refine (henter _ n).trans ?_
          rw [ih hbefore]
          cases p n <;> rfl
      | exit n =>
          rw [lastEntered?_append_of_entered?_eq_none _ _ rfl, ← ih hbefore]
          exact hexit _ n
      | _ => exact hlast.elim

/-- The import that a qualifier is bound to has the namespace that it states. -/
theorem uri_lastImport? {qualifier uri : String} {events : List Event}
    (h : (lastImport? qualifier events).bind (·.unquotedField? Field.uri) = some uri) :
    ((lastImport? qualifier events).bind Node.declaredImport?).map Import.uri = some uri := by
  obtain ⟨n, hn, huri⟩ := Option.bind_eq_some_iff.1 h
  have himports := (List.mem_filter.1 (List.mem_of_getLast? hn)).2
  rw [Node.importsUnder, Bool.and_eq_true, beq_iff_eq] at himports
  obtain ⟨element, helement, -⟩ := Option.map_eq_some_iff.1 himports.2
  rw [hn, Option.bind_some, Node.declaredImport?, helement, huri]
  rfl

/-- Entering a node binds the qualifier that it imports a module under. -/
theorem LocalResolver.import?_enter (r : LocalResolver) (n : Node) (qualifier : String) :
    (r.enter n).symbols.import? qualifier
      = if n.importsUnder qualifier then n.declaredImport? else r.symbols.import? qualifier := by
  rw [SymbolTable.import?, LocalResolver.imports_enter, Node.importsUnder, Node.declaredImport?]
  cases n.is Kind.moduleImport with
  | false => rfl
  | true =>
      cases n.childByField? Field.qualifier with
      | none => rfl
      | some element =>
          simp only [if_true, Option.map_some, Option.elim_some, Keyed.find?_insert, Bool.true_and]
          by_cases heq : element.text = qualifier <;> simp [heq, SymbolTable.import?]

/-- **A qualifier** is bound to the last import under it. -/
theorem LocalResolver.import?_foldl {r : LocalResolver} (h : r.symbols.imports = .empty)
    {events : List Event} (hallows : Trail.start.Allows events) (qualifier : String) :
    (events.foldl (fun r event => Resolver.on event r) r).symbols.import? qualifier
      = (lastImport? qualifier events).bind Node.declaredImport? := by
  have hnone : r.symbols.import? qualifier = none := by
    rw [SymbolTable.import?, h, Keyed.find?_empty]
  rw [LocalResolver.foldl_lastEntered (·.symbols.import? qualifier)
    (fun r n => r.import?_enter n qualifier)
    (fun r n => congrArg (Keyed.find? · qualifier) (r.imports_exit n)) r hallows, hnone,
    lastImport?_eq]
  cases lastEntered? (·.importsUnder qualifier) events <;> rfl

/-- When a node that imports nothing under a qualifier is entered, the qualifier is bound to
the last import under it before. -/
theorem LocalResolver.import?_entering (r : LocalResolver) {root n : Node}
    {before after : List Event} (hevents : root.events = before ++ .enter n :: after)
    {qualifier : String} (h : n.importsUnder qualifier = false) :
    ((before ++ [Event.enter n]).foldl (fun r event => Resolver.on event r)
        r.enterSource).symbols.import? qualifier
      = (lastImport? qualifier before).bind Node.declaredImport? := by
  have hallows : Trail.start.Allows (before ++ [.enter n]) :=
    Node.allows_of_events_eq (hevents.trans (List.append_cons before _ after))
  rw [LocalResolver.import?_foldl rfl hallows, lastImport?_eq, lastEntered?_append_enter, h]
  rfl

/-! ## what a unit without a module declaration declares -/

theorem declaration_foldl_addParameter (params : List Declaration) (f : Function) :
    (params.foldl Function.addParameter f).declaration = f.declaration := by
  induction params generalizing f with
  | nil => rfl
  | cons d params ih => exact ih (f.addParameter d)

theorem Node.uri_declaredParams (n : Node) (line : Node → UInt32) :
    ∀ d ∈ n.declaredParams line, d.uri = none := by
  intro d hd
  obtain ⟨param, -, hparam⟩ := List.mem_filterMap.1 hd
  obtain ⟨name, -, rfl⟩ := Option.map_eq_some_iff.1 hparam
  rfl

/-- What a node declares is in the namespace of its module, and the variables of a let
clause are in none. -/
theorem Node.uri_declares (n : Node) (uri : Option String) :
    ∀ s ∈ n.declares uri,
      s.key.uri = if n.is Kind.letClause then none else properUri uri := by
  intro s hs
  unfold declares at hs
  split at hs
  case h_1 hkind =>
      obtain ⟨d, hd, rfl⟩ := List.mem_map.1 hs
      obtain ⟨var, -, hvar⟩ := List.mem_filterMap.1 hd
      obtain ⟨name, -, rfl⟩ := Option.map_eq_some_iff.1 hvar
      rw [if_pos (Node.is_eq_true_iff.2 hkind)]
      rfl
  case h_2 hkind =>
      obtain ⟨d, hd, rfl⟩ := List.mem_map.1 hs
      obtain ⟨name, -, rfl⟩ := Option.map_eq_some_iff.1 (Option.mem_toList.1 hd)
      rw [if_neg (by simp +decide [Node.is, hkind])]
      rfl
  case h_3 hkind =>
      obtain ⟨f, hf, rfl⟩ := List.mem_map.1 hs
      obtain ⟨name, -, rfl⟩ := Option.map_eq_some_iff.1 (Option.mem_toList.1 hf)
      rw [if_neg (by simp +decide [Node.is, hkind])]
      exact congrArg Declaration.uri (declaration_foldl_addParameter _ _)
  case h_4 => exact absurd hs List.not_mem_nil

/-- Without a namespace nothing is declared in one. -/
theorem Node.uri_declares_none (n : Node) : ∀ s ∈ n.declares none, s.key.uri = none := by
  intro s hs
  rw [n.uri_declares none s hs]
  exact ite_self none

theorem lastModule_eq_none {sites : List Site}
    (h : ∀ s ∈ sites, s.node.is Kind.moduleDecl = false) : lastModule sites = none := by
  have hnone : sites.filter (·.node.is Kind.moduleDecl) = [] :=
    List.filter_eq_nil_iff.2 fun s hs => by simp [h s hs]
  rw [lastModule, hnone]
  rfl

section

variable {sites : List Site} (h : ∀ s ∈ sites, s.node.is Kind.moduleDecl = false)
include h

theorem uri_bindings (s : Site) : ∀ d ∈ bindings sites s, d.key.uri = none := by
  have hmodule : lastModule (sites.filter (·.index < s.index)) = none :=
    lastModule_eq_none fun m hm => h m (List.mem_filter.1 hm).1
  rw [bindings, hmodule]
  exact s.node.uri_declares_none

theorem uri_scopeFrames (path : List Place) :
    ∀ frame ∈ scopeFrames sites path, ∀ s ∈ frame, s.key.uri = none := by
  induction path with
  | nil => simp [scopeFrames]
  | cons p around ih =>
      rw [scopeFrames]
      cases p.node.opensScope with
      | false => exact ih
      | true =>
          intro frame hframe s hs
          rcases List.mem_cons.1 hframe with rfl | hframe
          · rcases List.mem_append.1 hs with hs | hs
            · rw [parameters] at hs
              split at hs
              · obtain ⟨d, hd, rfl⟩ := List.mem_map.1 hs
                cases hfunction : around.find? (·.node.is Kind.functionDecl) with
                | none => simp [hfunction] at hd
                | some function =>
                    rw [hfunction] at hd
                    exact function.node.uri_declaredParams Node.line d hd
              · exact absurd hs List.not_mem_nil
            · obtain ⟨owner, -, hs⟩ := List.mem_flatMap.1 hs
              exact uri_bindings h owner s hs
          · exact ih frame hframe s hs

/-- Nothing that is bound in a frame of the unit is in a namespace. -/
theorem uri_frames (path : List Place) :
    ∀ frame ∈ frames sites path, ∀ s ∈ frame, s.key.uri = none := by
  intro frame hframe s hs
  rcases List.mem_append.1 hframe with hframe | hframe
  · exact uri_scopeFrames h path frame hframe s hs
  · cases List.mem_singleton.1 hframe
    obtain ⟨owner, -, hs⟩ := List.mem_flatMap.1 hs
    exact uri_bindings h owner s hs

end

/-! ## look-up -/

section

variable {exports : Keyed SymbolKey Symbol} {t : Trail} {r : LocalResolver}

/-- **A name in a namespace** is found among the exports as long as the unit has not
declared a module. -/
theorem Follows.lookup_foreign (h : Follows exports t r)
    (hmodule : ∀ s ∈ t.entered, s.node.is Kind.moduleDecl = false) {key : SymbolKey}
    (hkey : key.uri ≠ none) : r.symbols.scopes.lookup key = exports.find? key := by
  have hnone : (frames t.entered t.around).findSome? (lastUnder key) = none := by
    rw [List.findSome?_eq_none_iff]
    intro frame hframe
    rw [lastUnder, List.find?_eq_none]
    intro s hs heq
    have huri := uri_frames hmodule t.around frame hframe s (List.mem_reverse.1 hs)
    rw [of_decide_eq_true heq] at huri
    exact hkey huri
  rw [h.lookup_eq, hnone, Option.none_or]

/-- **A qualified name** stands for what is exported under its local name in the
namespace that its qualifier is bound to. -/
theorem Follows.declaration?_imported (h : Follows exports t r)
    (hmodule : ∀ s ∈ t.entered, s.node.is Kind.moduleDecl = false)
    {name qualifier localPart uri : String} (hname : Spells name qualifier localPart)
    (hqualifier : IsNamePart qualifier) (hlocal : IsNamePart localPart)
    (huri : isBlankText uri = false)
    (himport : (r.symbols.import? qualifier).map Import.uri = some uri) :
    r.symbols.declaration? (localName name) (r.symbols.namespaceOf? name)
      = (exports.find? ⟨localPart, some uri⟩).map Symbol.declaration := by
  have hnamespace : r.symbols.namespaceOf? name = some uri := by
    rw [SymbolTable.namespaceOf?, h.module_eq, lastModule_eq_none hmodule,
      qualifierOf_spelled hname hqualifier]
    exact himport
  have hkey : SymbolKey.make localPart (some uri) = ⟨localPart, some uri⟩ := by
    rw [SymbolKey.make, hlocal.localName_eq, properUri, Option.filter_some, huri]
    rfl
  rw [hnamespace, localName_spelled hname hqualifier, SymbolTable.declaration?,
    SymbolTable.symbol?, hkey, h.lookup_foreign hmodule (Option.some_ne_none uri)]

end

end QueryAudit
