import QueryAudit.Proofs.Resolver.Local
import QueryAudit.Proofs.Scope.Stack
import QueryAudit.Proofs.Walk.Site

/-!
# QueryAudit.Proofs.Resolver.Visible

Which declaration a name stands for, said of the tree alone.  A declaration
belongs to the nearest node around it that opens a frame, or, when there is
none, to the transaction it stands in; a main module ends a transaction.  A name
is looked for in the frames around a node, from the inside out, then in the
transaction, then among the exports, and in each the last binding up to the node
counts.

* `visible` — the rule;
* `frames_enter`, `frames_exit` — how the frames change along a walk;
* `frames_exit_mainModule` — after a main module nothing of it is left.
-/

namespace QueryAudit

/-! ## the rule -/

/-- The namespace of what is declared in a module; an empty one is none. -/
def namespaceIn (module : Option ModuleIdentity) : Option String :=
  (module.map ModuleIdentity.uri).filter fun uri => !uri.isEmpty

theorem SymbolTable.ownNamespace?_eq (t : SymbolTable) :
    t.ownNamespace? = namespaceIn t.module := rfl

/-- The nearest node around a site that opens a frame. -/
def Site.owner? (s : Site) : Option Place := s.around.find? (·.node.opensScope)

section

variable (sites : List Site)

/-- The module that the last module declaration announces. -/
def lastModule : Option ModuleIdentity :=
  ((sites.filter (·.node.is Kind.moduleDecl)).getLast?).map (·.node.declaredModule)

/-- The symbols that a site declares, in the namespace of the last module
declaration before it. -/
def bindings (s : Site) : List Symbol :=
  s.node.declares (namespaceIn (lastModule (sites.filter (·.index < s.index))))

/-- What is declared at the sites of a choice, which sees the sites before each. -/
def declaredWhere (choice : List Site → Site → Bool) : List Symbol :=
  (sites.filter fun s => choice (sites.filter (·.index < s.index)) s).flatMap (bindings sites)

/-- The parameters that a node makes visible: those of the nearest function
around it when it is a function body. -/
def parameters (p : Place) (around : List Place) : List Symbol :=
  if p.node.is Kind.functionBody then
    (((around.find? (·.node.is Kind.functionDecl)).map
      (·.node.declaredParams Node.line)).getD []).map .var
  else []

/-- What belongs to each node of a path that opens a frame, innermost first. -/
def scopeFrames : List Place → List (List Symbol)
  | [] => []
  | p :: around =>
    if p.node.opensScope then
      (parameters p around ++ (sites.filter (·.owner? = some p)).flatMap (bindings sites))
        :: scopeFrames around
    else scopeFrames around

/-- Whether a main module that was not over when `s` was entered is over at a
path. -/
def endedSince (path : List Place) (s : Site) : Bool :=
  sites.any fun m => m.node.is Kind.mainModule && m.toPlace ∉ path
    && (s.index < m.index || m.toPlace ∈ s.path)

theorem endedSince_iff {path : List Place} {s : Site} :
    endedSince sites path s = true ↔ ∃ m ∈ sites, m.node.is Kind.mainModule = true ∧
      m.toPlace ∉ path ∧ (s.index < m.index ∨ m.toPlace ∈ s.path) := by
  simp [endedSince, and_assoc]

/-- What belongs to the transaction that a path stands in. -/
def segment (path : List Place) : List Symbol :=
  (sites.filter fun s => s.owner? = none && !endedSince sites path s).flatMap (bindings sites)

/-- What is bound at a path in each frame but the reserved one, innermost first. -/
def frames (path : List Place) : List (List Symbol) := scopeFrames sites path ++ [segment sites path]

variable {sites}

theorem scopeFrames_eq_nil {path : List Place} (h : ∀ p ∈ path, ¬ p.node.opensScope = true) :
    scopeFrames sites path = [] := by
  induction path with
  | nil => rfl
  | cons p around ih =>
      rw [scopeFrames, if_neg (h p List.mem_cons_self)]
      exact ih fun q hq => h q (List.mem_cons_of_mem p hq)

theorem scopeFrames_ne_nil {path : List Place} {p : Place}
    (h : path.find? (·.node.opensScope) = some p) : scopeFrames sites path ≠ [] := by
  induction path with
  | nil => simp at h
  | cons q around ih =>
      cases hopens : q.node.opensScope with
      | true => simp [scopeFrames, hopens]
      | false =>
          rw [List.find?_cons_of_neg (by simp [hopens])] at h
          rw [scopeFrames, hopens]
          exact ih h

end

/-- The symbol that a key stands for at a site of a tree. -/
def visible (root : Node) (exports : Keyed SymbolKey Symbol) (s : Site) (key : SymbolKey) :
    Option Symbol :=
  ((frames (root.sites.take (s.index + 1)) s.path).findSome? (lastUnder key)).or
    (exports.find? key)

/-- Whether a site is no main module in a function body or a FLWOR expression. -/
def Site.isOutermost (s : Site) : Bool := !s.node.is Kind.mainModule || s.owner?.isNone

theorem Site.not_opensScope_of_isOutermost {s : Site} (h : s.isOutermost = true)
    (hmain : s.node.is Kind.mainModule = true) : ∀ p ∈ s.around, ¬ p.node.opensScope = true := by
  rw [isOutermost, hmain, Bool.not_true, Bool.false_or, Option.isNone_iff_eq_none] at h
  exact List.find?_eq_none.1 h

/-- No main module stands in a function body or a FLWOR expression. -/
def Node.mainModulesOutermost (root : Node) : Bool := root.sites.all Site.isOutermost

/-- It is so when there is no main module. -/
theorem Node.mainModulesOutermost_of_forall_ne {root : Node}
    (h : ∀ d ∈ root.preorder, d.kind ≠ Kind.mainModule) : root.mainModulesOutermost = true := by
  refine List.all_eq_true.2 fun s hs => ?_
  have hmem : s.node ∈ root.preorder := by
    rw [← map_node_sites]
    exact List.mem_map.2 ⟨s, hs, rfl⟩
  simp [Site.isOutermost, is, h s.node hmem]

/-! ## entering a node -/

theorem lastModule_enter (t : Trail) (n : Node) :
    lastModule (t.enter n).entered
      = if n.is Kind.moduleDecl then some n.declaredModule else lastModule t.entered := by
  rw [lastModule, lastModule, Trail.entered_enter, List.filter_append]
  cases hkind : n.is Kind.moduleDecl <;> simp [hkind]

section

variable {t : Trail} (h : t.Sound) (n : Node)
include h

/-- What was entered before an old site does not change. -/
theorem filter_lt_enter {s : Site} (hs : s ∈ t.entered) :
    (t.enter n).entered.filter (·.index < s.index) = t.entered.filter (·.index < s.index) := by
  have hlt := h.index_lt hs
  rw [Trail.entered_enter, List.filter_append]
  simp [Nat.not_lt.2 (Nat.le_of_lt hlt)]

/-- All that was entered before stands before a new site. -/
theorem filter_lt_site :
    (t.enter n).entered.filter (·.index < (t.site n).index) = t.entered := by
  have hold : t.entered.filter (·.index < (t.site n).index) = t.entered := by
    rw [List.filter_eq_self]
    exact fun s hs => decide_eq_true (h.index_lt hs)
  rw [Trail.entered_enter, List.filter_append, hold]
  simp

/-- A site declares the same whatever is entered after it. -/
theorem bindings_enter {s : Site} (hs : s ∈ t.entered) :
    bindings (t.enter n).entered s = bindings t.entered s := by
  rw [bindings, bindings, filter_lt_enter h n hs]

/-- A new site declares in the namespace of the last module declaration so far. -/
theorem bindings_site :
    bindings (t.enter n).entered (t.site n) = n.declares (namespaceIn (lastModule t.entered)) := by
  rw [bindings, filter_lt_site h n]
  rfl

/-- What is declared by choice grows by what the new site declares, if it is chosen. -/
theorem declaredWhere_enter (choice : List Site → Site → Bool) :
    declaredWhere (t.enter n).entered choice = declaredWhere t.entered choice
      ++ if choice t.entered (t.site n) then n.declares (namespaceIn (lastModule t.entered))
        else [] := by
  have hfilter : t.entered.filter
        (fun s => choice ((t.enter n).entered.filter (·.index < s.index)) s)
      = t.entered.filter fun s => choice (t.entered.filter (·.index < s.index)) s :=
    List.filter_congr fun s hs => by rw [filter_lt_enter h n hs]
  have hold : ∀ chosen ⊆ t.entered,
      chosen.flatMap (bindings (t.enter n).entered) = chosen.flatMap (bindings t.entered) := by
    intro chosen hchosen
    rw [List.flatMap_def, List.flatMap_def, List.map_congr_left]
    exact fun s hs => bindings_enter h n (hchosen hs)
  rw [declaredWhere, Trail.entered_enter, List.filter_append, ← Trail.entered_enter, hfilter,
    List.flatMap_append, hold _ fun s hs => (List.mem_filter.1 hs).1, List.filter_cons,
    filter_lt_site h n, List.filter_nil]
  cases choice t.entered (t.site n) with
  | true =>
      rw [if_pos rfl, if_pos rfl, List.flatMap_singleton, bindings_site h n]
      rfl
  | false => simp [declaredWhere]

/-- What belongs to a place grows by what the new site declares there. -/
theorem owned_enter (p : Site → Bool) :
    ((t.enter n).entered.filter p).flatMap (bindings (t.enter n).entered)
      = (t.entered.filter p).flatMap (bindings t.entered)
        ++ if p (t.site n) then bindings (t.enter n).entered (t.site n) else [] := by
  rw [bindings_site h n]
  exact declaredWhere_enter h n fun _ => p

theorem scopeFrames_enter_of_not_owner {path : List Place}
    (hpath : ∀ p ∈ path, (t.site n).owner? ≠ some p) :
    scopeFrames (t.enter n).entered path = scopeFrames t.entered path := by
  induction path with
  | nil => rfl
  | cons p around ih =>
      have hp := hpath p List.mem_cons_self
      rw [scopeFrames, scopeFrames, ih fun q hq => hpath q (List.mem_cons_of_mem p hq),
        owned_enter h n]
      simp [hp]

/-- The innermost frame grows by what the new site declares. -/
theorem scopeFrames_enter {path : List Place} (hnodup : path.Nodup)
    (howner : (t.site n).owner? = path.find? (·.node.opensScope)) :
    scopeFrames (t.enter n).entered path
      = (scopeFrames t.entered path).modifyHead
          (· ++ bindings (t.enter n).entered (t.site n)) := by
  induction path with
  | nil => rfl
  | cons p around ih =>
      obtain ⟨hp, hnodup⟩ := List.nodup_cons.1 hnodup
      cases hopens : p.node.opensScope with
      | true =>
          rw [List.find?_cons_of_pos (by exact hopens)] at howner
          have hrest : scopeFrames (t.enter n).entered around = scopeFrames t.entered around := by
            apply scopeFrames_enter_of_not_owner h n
            intro q hq heq
            rw [howner, Option.some.injEq] at heq
            exact hp (heq ▸ hq)
          rw [scopeFrames, scopeFrames, if_pos hopens, if_pos hopens, hrest, owned_enter h n]
          simp [howner]
      | false =>
          rw [List.find?_cons_of_neg (by simp [hopens])] at howner
          rw [scopeFrames, scopeFrames, hopens]
          exact ih hnodup howner

/-- Entering a node ends no transaction. -/
theorem endedSince_enter (s : Site) :
    endedSince (t.enter n).entered (t.enter n).around s = endedSince t.entered t.around s := by
  rw [Bool.eq_iff_iff, endedSince_iff, endedSince_iff]
  constructor
  · rintro ⟨m, hm, hmain, hover, hsince⟩
    rcases List.mem_append.1 hm with hm | hm
    · exact ⟨m, hm, hmain, fun hin => hover (List.mem_cons_of_mem _ hin), hsince⟩
    · cases List.mem_singleton.1 hm
      exact absurd List.mem_cons_self hover
  · rintro ⟨m, hm, hmain, hover, hsince⟩
    refine ⟨m, List.mem_append_left _ hm, hmain, ?_, hsince⟩
    intro hin
    rcases List.mem_cons.1 hin with heq | hin
    · exact h.toPlace_ne_site hm n heq
    · exact hover hin

/-- No main module is over that was not over when the new site was entered. -/
theorem endedSince_site : endedSince t.entered t.around (t.site n) = false := by
  rw [← Bool.not_eq_true, endedSince_iff]
  rintro ⟨m, hm, -, hover, hlt | hin⟩
  · exact Nat.lt_irrefl _ (Nat.lt_trans hlt (h.index_lt hm))
  · rcases List.mem_cons.1 hin with heq | hin
    · exact h.toPlace_ne_site hm n heq
    · exact hover hin

/-- The transaction grows by what a new site declares that no frame is around. -/
theorem segment_enter :
    segment (t.enter n).entered (t.enter n).around
      = segment t.entered t.around
        ++ if (t.site n).owner? = none then bindings (t.enter n).entered (t.site n) else [] := by
  have hfilter : ∀ sites : List Site,
      sites.filter (fun s =>
        s.owner? = none && !endedSince (t.enter n).entered (t.enter n).around s)
      = sites.filter (fun s => s.owner? = none && !endedSince t.entered t.around s) := by
    intro sites
    exact List.filter_congr fun s _ => by rw [endedSince_enter h n]
  rw [segment, hfilter, owned_enter h n, segment, endedSince_site h n]
  simp

/-- **Entering a node that opens a frame** adds the frame, with its parameters. -/
theorem frames_enter_opensScope (hopens : n.opensScope = true) :
    frames (t.enter n).entered (t.enter n).around
      = parameters (t.site n).toPlace t.around :: frames t.entered t.around := by
  have hnone : bindings (t.enter n).entered (t.site n) = [] := n.declares_of_opensScope hopens _
  have hunowned : (t.enter n).entered.filter (·.owner? = some (t.site n).toPlace) = [] := by
    rw [List.filter_eq_nil_iff]
    intro s hs howner
    have hmem : (t.site n).toPlace ∈ s.around :=
      List.mem_of_find?_eq_some (of_decide_eq_true howner)
    have hlt := (h.enter n).index_lt hs
    have haround := (h.enter n).around_lt s hs _ hmem
    simp only [Trail.entered_enter, List.length_append, List.length_singleton,
      Trail.site_index] at hlt haround
    omega
  have houter : scopeFrames (t.enter n).entered t.around = scopeFrames t.entered t.around := by
    rw [scopeFrames_enter h n h.nodup_around rfl, hnone]
    cases scopeFrames t.entered t.around <;> simp
  have hopens' : (t.site n).toPlace.node.opensScope = true := hopens
  rw [frames, frames, segment_enter h n, hnone, Trail.around_enter, scopeFrames, if_pos hopens',
    hunowned, houter]
  simp

/-- **Entering any other node** adds what it declares to the innermost frame. -/
theorem frames_enter (hopens : n.opensScope = false) :
    frames (t.enter n).entered (t.enter n).around
      = (frames t.entered t.around).modifyHead
          (· ++ bindings (t.enter n).entered (t.site n)) := by
  have hopens' : (t.site n).toPlace.node.opensScope = false := hopens
  have hskip : scopeFrames (t.enter n).entered (t.enter n).around
      = scopeFrames (t.enter n).entered t.around := by
    rw [Trail.around_enter, scopeFrames, hopens']
    rfl
  rw [frames, frames, hskip, segment_enter h n, scopeFrames_enter h n h.nodup_around rfl]
  cases howner : (t.site n).owner? with
  | none =>
      have hnil : scopeFrames t.entered t.around = [] :=
        scopeFrames_eq_nil (List.find?_eq_none.1 howner)
      simp [hnil]
  | some p =>
      have hne : scopeFrames t.entered t.around ≠ [] := scopeFrames_ne_nil howner
      cases hframes : scopeFrames t.entered t.around with
      | nil => exact absurd hframes hne
      | cons frame rest => simp

end

/-! ## leaving a node -/

section

variable {t : Trail} {place : Place} {outer : List Place} (haround : t.around = place :: outer)
include haround

theorem around_exit_of_cons : t.exit.around = outer := by
  rw [Trail.around_exit, haround, List.tail_cons]

/-- Leaving a node that is no main module ends no transaction. -/
theorem segment_exit (hmain : place.node.is Kind.mainModule = false) :
    segment t.exit.entered t.exit.around = segment t.entered t.around := by
  have hended : ∀ s, endedSince t.entered outer s = endedSince t.entered (place :: outer) s := by
    intro s
    rw [Bool.eq_iff_iff, endedSince_iff, endedSince_iff]
    constructor
    · rintro ⟨m, hm, hkind, hover, hsince⟩
      refine ⟨m, hm, hkind, ?_, hsince⟩
      intro hin
      rcases List.mem_cons.1 hin with heq | hin
      · rw [← heq, hkind] at hmain
        contradiction
      · exact hover hin
    · rintro ⟨m, hm, hkind, hover, hsince⟩
      exact ⟨m, hm, hkind, fun hin => hover (List.mem_cons_of_mem _ hin), hsince⟩
  rw [around_exit_of_cons haround, haround, segment, segment]
  congr 1
  exact List.filter_congr fun s _ => by rw [← hended]; rfl

/-- **Leaving a node that opened a frame** takes that frame away. -/
theorem frames_exit_opensScope (hopens : place.node.opensScope = true) :
    ∃ top, frames t.entered t.around = top :: frames t.exit.entered t.exit.around := by
  have hmain := Node.not_mainModule_of_opensScope hopens
  refine ⟨parameters place outer
    ++ (t.entered.filter (·.owner? = some place)).flatMap (bindings t.entered), ?_⟩
  rw [frames, frames, segment_exit haround hmain, around_exit_of_cons haround, haround,
    scopeFrames, if_pos hopens]
  rfl

/-- **Leaving any other node** but a main module changes no frame. -/
theorem frames_exit (hopens : place.node.opensScope = false)
    (hmain : place.node.is Kind.mainModule = false) :
    frames t.exit.entered t.exit.around = frames t.entered t.around := by
  rw [frames, frames, segment_exit haround hmain, around_exit_of_cons haround, haround,
    scopeFrames, hopens]
  rfl

/-- **Leaving a main module** leaves nothing behind: the next transaction starts
without bindings. -/
theorem frames_exit_mainModule (h : t.Sound) (hmain : place.node.is Kind.mainModule = true)
    (houter : ∀ p ∈ outer, ¬ p.node.opensScope = true) :
    frames t.exit.entered t.exit.around = [[]] := by
  have hplace : place ∈ t.around := by rw [haround]; exact List.mem_cons_self
  obtain ⟨m, hm, hmplace⟩ := h.exists_site hplace
  have hover : m.toPlace ∉ outer := by
    rw [hmplace]
    exact h.not_mem_outer haround
  have hended : ∀ s ∈ t.entered, endedSince t.entered outer s = true := by
    intro s hs
    refine (endedSince_iff t.entered).2 ⟨m, hm, by rw [hmplace]; exact hmain, hover, ?_⟩
    by_cases hlt : s.index < m.index
    · exact Or.inl hlt
    · refine Or.inr (hmplace ▸ h.inside place hplace s hs ?_)
      rw [show place.index = m.index from congrArg Place.index hmplace.symm]
      exact Nat.not_lt.1 hlt
  have hnone : t.entered.filter (fun s => s.owner? = none && !endedSince t.entered outer s)
      = [] := by
    rw [List.filter_eq_nil_iff]
    intro s hs
    simp [hended s hs]
  rw [around_exit_of_cons haround, Trail.entered_exit, frames, scopeFrames_eq_nil houter, segment,
    hnone]
  rfl

end

end QueryAudit
