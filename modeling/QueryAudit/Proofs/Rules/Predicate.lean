import QueryAudit.Proofs.Walk.Moment
import QueryAudit.Proofs.Walk.SelfContained
import QueryAudit.Rules.Predicate

/-!
# QueryAudit.Proofs.Rules.Predicate

The rules on predicates against the nodes around a site.  At every moment of a unit the
count of a check is the number of open predicates, whatever it was before the unit, so that
a node is found at fault inside a predicate exactly when one of the nodes around it is one.

* `level_eq_opened` — the count of a check at any moment;
* `blamesLines_predicateCheck` — the issues of a check that counts predicates;
* `predicate_rules` — the issues of the two rules, and the count after each call.
-/

namespace QueryAudit

/-- A predicate is among the nodes around a site. -/
def Site.InPredicate (s : Site) : Prop := ∃ p ∈ s.around, p.node.kind = Kind.predicate

instance (s : Site) : Decidable s.InPredicate :=
  inferInstanceAs (Decidable (∃ p ∈ s.around, p.node.kind = Kind.predicate))

namespace Rules

/-- The count of open predicates after an event. -/
def PredicateDepth.on (d : PredicateDepth) : Event → PredicateDepth
  | .enterSource _ => .zero
  | .enter n => if n.is Kind.predicate then d.enter else d
  | .exit n => if n.is Kind.predicate then d.exit else d
  | _ => d

/-- Arithmetic, or a call of a function that is not known to be cheap. -/
def CostsInPredicate (n : Node) : Prop :=
  n.kind = Kind.add ∨ n.kind = Kind.mult ∨
    n.kind = Kind.functionCall ∧
      ∀ ending ∈ cheapFunctions, ¬ ending.toList <:+ (n.functionName?.getD "").toList

/-- A predicate, or a path that is spelled with a token of its own. -/
def NavigatesInPredicate (n : Node) : Prop :=
  n.kind = Kind.predicate ∨ n.kind = Kind.relativePathExpr ∧ n.tokens ≠ []

instance (n : Node) : Decidable (CostsInPredicate n) :=
  inferInstanceAs (Decidable (_ ∨ _ ∨ _ ∧ _))

instance (n : Node) : Decidable (NavigatesInPredicate n) :=
  inferInstanceAs (Decidable (_ ∨ _ ∧ _))

/-- A check that counts predicates looks at the count and at the nodes it comes to. -/
theorem selfContained_predicateCheck (find : PredicateDepth → Node → List Finding) :
    (predicateCheck find).SelfContained PredicateDepth.on fun d event =>
      match event with
      | .enter n => find d n
      | _ => [] := by
  intro context event depth
  cases event <;> rfl

/-! ## the count -/

/-- **Along a walk** the count stays that of the open predicates. -/
theorem level_foldl {t : Trail} {events : List Event} (hallows : t.Allows events)
    {d : PredicateDepth} (h : d.level = t.opened Kind.predicate) :
    (events.foldl PredicateDepth.on d).level
      = (events.foldl Trail.on t).opened Kind.predicate := by
  induction events generalizing t d with
  | nil => exact h
  | cons event events ih =>
      cases event with
      | enter n =>
          refine ih hallows ?_
          rw [Trail.opened_enter, ← h, PredicateDepth.on]
          split <;> rfl
      | exit n =>
          obtain ⟨hhead, hallows⟩ := hallows
          obtain ⟨place, hplace, rfl⟩ := Option.map_eq_some_iff.1 hhead
          obtain ⟨outer, hcons⟩ := List.head?_eq_some_iff.1 hplace
          refine ih hallows ?_
          -- the node is open, so that the count is not zero when it is a predicate
          rw [Trail.opened_exit Kind.predicate hcons] at h
          rw [PredicateDepth.on]
          split
          · next hkind =>
              rw [if_pos hkind] at h
              rw [PredicateDepth.exit, h, Nat.add_sub_cancel]
          · next hkind => simpa [hkind] using h
      | enterSource root => exact hallows.elim
      | exitSource root => exact hallows.elim
      | report log => exact hallows.elim

/-- **At any moment of a unit** the count is that of the open predicates, whatever it was
before the unit. -/
theorem level_eq_opened {u : SourceUnit} {before after : List Event}
    (h : u.events = before ++ after) (hne : before ≠ []) (d : PredicateDepth) :
    (before.foldl PredicateDepth.on d).level
      = (before.foldl Trail.on .start).opened Kind.predicate := by
  rcases u.events_eq_append h with rfl | ⟨met, rest, rfl, htree, -⟩ | ⟨ending, rfl, hending⟩
  · contradiction
  · exact level_foldl (Node.allows_of_events_eq htree) rfl
  · have hend : ∀ d : PredicateDepth, ending.foldl PredicateDepth.on d = d := by
      refine fun d => foldl_eq_self fun event hevent => ?_
      rcases List.mem_pair.1 (hending hevent) with rfl | rfl <;> rfl
    rw [List.foldl_cons, List.foldl_cons, List.foldl_append, List.foldl_append, hend,
      SourceUnit.foldl_ending _ hending]
    exact level_foldl u.tree.allows_events rfl

/-- A check finds itself in a predicate when one is around the site that it comes to. -/
theorem inPredicate_iff {u : SourceUnit} {n : Node} {before after : List Event}
    (h : u.events = before ++ .enter n :: after) (d : PredicateDepth) :
    (before.foldl PredicateDepth.on d).inPredicate = true
      ↔ ((before.foldl Trail.on .start).site n).InPredicate := by
  obtain ⟨met, rest, rfl, -⟩ := SourceUnit.exists_split h (by simp)
  rw [PredicateDepth.inPredicate, decide_eq_true_iff,
    level_eq_opened h (List.cons_ne_nil _ _) d, Trail.opened, List.countP_pos_iff]
  simp [Site.InPredicate, Node.is]

/-- **The count after a call** of a check in any list of checks. -/
theorem level_after_call {ρ : Type} [Resolver ρ] {u : SourceUnit} {r : ρ}
    {find : PredicateDepth → Node → List Finding} {d : PredicateDepth} {checks : List Check}
    {i : Nat} (hi : checks[i]? = some { predicateCheck find with memory := d }) {k : Nat}
    {call : Call} (hk : (u.callsOf r checks i)[k]? = some call) :
    u.events[k]? = some call.event ∧ ∃ level,
      call.after = some { predicateCheck find with memory := ⟨level⟩ } ∧
      level + (u.events.take (k + 1)).countP (·.leaves Kind.predicate)
        = (u.events.take (k + 1)).countP (·.enters Kind.predicate) ∧
      level ≤ u.tree.depth ∧
      ∀ n, call.event = .exit n → n.kind = Kind.predicate →
        call.check = { predicateCheck find with memory := ⟨level + 1⟩ } := by
  obtain ⟨hevent, hcheck, hafter, -⟩ := (selfContained_predicateCheck find).getElem?_callsOf hi hk
  have hsplit := (List.take_append_drop (k + 1) u.events).symm
  have hupto := take_add_one_of_getElem? hevent
  have hlevel := level_eq_opened hsplit (by simp [hupto]) d
  refine ⟨hevent, ((u.events.take (k + 1)).foldl PredicateDepth.on d).level, hafter, ?_, ?_, ?_⟩
  · rw [hlevel]
    exact SourceUnit.opened_add_leaves Kind.predicate hsplit
  · rw [hlevel]
    exact Nat.le_trans List.countP_le_length (SourceUnit.length_around_le_depth hsplit)
  · intro n hn hkind
    have hpredicate : n.is Kind.predicate = true := Node.is_eq_true_iff.2 hkind
    have hbefore := eq_take_append_cons_drop (hn ▸ hevent)
    obtain ⟨met, rest, hmet, -⟩ := SourceUnit.exists_split hbefore (by simp)
    -- both counts are those of the events, which differ in the exit of a predicate
    have hstep : ((u.events.take k).foldl PredicateDepth.on d).level
        = ((u.events.take (k + 1)).foldl PredicateDepth.on d).level + 1 := by
      rw [level_eq_opened hbefore (by simp [hmet]) d, hlevel]
      have hcount := SourceUnit.opened_add_leaves Kind.predicate hsplit
      have hcountBefore := SourceUnit.opened_add_leaves Kind.predicate hbefore
      simp only [hupto, hn, List.countP_append, List.countP_singleton, Event.leaves_exit,
        Event.enters_exit, hpredicate, reduceIte, Bool.false_eq_true] at hcount ⊢
      omega
    rw [hcheck, ← hstep]
    rfl

/-! ## the issues -/

/-- **A check that blames nodes in predicates** raises its rule at the sites of these nodes
that have a predicate around them. -/
theorem blamesLines_predicateCheck {find : PredicateDepth → Node → List Finding} {key : String}
    {blamed : Node → Prop}
    (hfind : ∀ d n, BlamesIf (find d n) key n.line (d.inPredicate = true ∧ blamed n))
    {ρ : Type} [Resolver ρ] (u : SourceUnit) (r : ρ) (d : PredicateDepth) :
    BlamesLines (process u r [{ predicateCheck find with memory := d }]).2 key fun line =>
      ∃ s ∈ u.tree.sites, s.node.line = line ∧ blamed s.node ∧ s.InPredicate := by
  obtain ⟨issues, hprocess, hissues⟩ := (selfContained_predicateCheck find).process_alone u r d
  refine ⟨issues, hprocess, fun rule line => (hissues rule line).trans ?_⟩
  constructor
  · rintro ⟨before, event, after, hevents, hfound⟩
    cases event with
    | enter n =>
        obtain ⟨⟨hin, hblamed⟩, hkey, hline⟩ := (hfind _ n rule line).1 hfound
        exact ⟨hkey, n.line, ⟨_, SourceUnit.site_mem_sites hevents, rfl, hblamed,
          (inPredicate_iff hevents d).1 hin⟩, hline⟩
    | _ => simp at hfound
  · rintro ⟨hkey, _, ⟨s, hs, rfl, hblamed, hin⟩, hline⟩
    obtain ⟨before, after, hevents, hsite⟩ := SourceUnit.exists_enter_of_mem_sites hs
    have hin : (before.foldl PredicateDepth.on d).inPredicate = true :=
      (inPredicate_iff hevents d).2 (hsite.symm ▸ hin)
    exact ⟨before, .enter s.node, after, hevents,
      (hfind _ s.node rule line).2 ⟨⟨hin, hblamed⟩, hkey, hline⟩⟩

theorem costsInPredicate_iff (n : Node) :
    CostsInPredicate n ↔ (n.is Kind.add || n.is Kind.mult) = true ∨
      (n.is Kind.functionCall
        && !endsWithAny (n.functionName?.getD "") cheapFunctions) = true := by
  simp [CostsInPredicate, Node.is, endsWithAny, or_assoc]

theorem navigatesInPredicate_iff (n : Node) :
    NavigatesInPredicate n ↔ n.is Kind.predicate = true ∨
      (n.is Kind.relativePathExpr && !n.tokens.isEmpty) = true := by
  simp [NavigatesInPredicate, Node.is]

theorem blamesLines_predicateOperationCheck {ρ : Type} [Resolver ρ] (u : SourceUnit) (r : ρ)
    (d : PredicateDepth) :
    BlamesLines (process u r [{ predicateOperationCheck with memory := d }]).2
      predicateOperation.key fun line =>
        ∃ s ∈ u.tree.sites, s.node.line = line ∧ CostsInPredicate s.node ∧ s.InPredicate := by
  refine blamesLines_predicateCheck (fun d n => ?_) u r d
  rw [costsInPredicate_iff]
  split
  · next hin =>
      split
      · next harithmetic => exact blamesIf_finding ⟨hin, Or.inl harithmetic⟩
      · next harithmetic =>
          split
          · next hcall => exact blamesIf_finding ⟨hin, Or.inr hcall⟩
          · next hcall => exact blamesIf_nil fun h => h.2.elim harithmetic hcall
  · next hin => exact blamesIf_nil fun h => hin h.1

theorem blamesLines_predicatePathCheck {ρ : Type} [Resolver ρ] (u : SourceUnit) (r : ρ)
    (d : PredicateDepth) :
    BlamesLines (process u r [{ predicatePathCheck with memory := d }]).2
      predicatePath.key fun line =>
        ∃ s ∈ u.tree.sites, s.node.line = line ∧ NavigatesInPredicate s.node ∧ s.InPredicate := by
  refine blamesLines_predicateCheck (fun d n => ?_) u r d
  rw [navigatesInPredicate_iff]
  split
  · next hin =>
      split
      · next hnested => exact blamesIf_finding ⟨hin, Or.inl hnested⟩
      · next hnested =>
          split
          · next hpath => exact blamesIf_finding ⟨hin, Or.inr hpath⟩
          · next hpath => exact blamesIf_nil fun h => h.2.elim hnested hpath
  · next hin => exact blamesIf_nil fun h => hin h.1

/-- **The rules on predicates**, in a tree that nests no deeper than is accepted and whatever
the checks remember of an earlier unit.  Operations are found at fault at the arithmetic and
the costly calls that have a predicate around them, and navigation at the predicates and
the spelled-out paths that have one; nothing else is.  After each call of such a check, among
any others, its count is the number of predicates that have been entered and not left; the
count fits a word of 32 bits, and leaving a predicate lowers it by one. -/
theorem predicate_rules {ρ : Type} [Resolver ρ] (u : SourceUnit)
    (hdepth : u.tree.depth ≤ maxDepth) (r : ρ) (d : PredicateDepth) :
    BlamesLines (process u r [{ predicateOperationCheck with memory := d }]).2
        predicateOperation.key
        (fun line => ∃ s ∈ u.tree.sites,
          s.node.line = line ∧ CostsInPredicate s.node ∧ s.InPredicate) ∧
    BlamesLines (process u r [{ predicatePathCheck with memory := d }]).2 predicatePath.key
        (fun line => ∃ s ∈ u.tree.sites,
          s.node.line = line ∧ NavigatesInPredicate s.node ∧ s.InPredicate) ∧
    ∀ find checks i k call, checks[i]? = some { predicateCheck find with memory := d } →
      (u.callsOf r checks i)[k]? = some call →
      u.events[k]? = some call.event ∧ ∃ level,
        call.after = some { predicateCheck find with memory := ⟨level⟩ } ∧
        level + (u.events.take (k + 1)).countP (·.leaves Kind.predicate)
          = (u.events.take (k + 1)).countP (·.enters Kind.predicate) ∧
        level ≤ maxDepth ∧ level < UInt32.size ∧
        ∀ n, call.event = .exit n → n.kind = Kind.predicate →
          call.check = { predicateCheck find with memory := ⟨level + 1⟩ } := by
  refine ⟨blamesLines_predicateOperationCheck u r d, blamesLines_predicatePathCheck u r d,
    fun find checks i k call hi hk => ?_⟩
  obtain ⟨hevent, level, hafter, hcount, hlevel, hexit⟩ := level_after_call hi hk
  have hmax := Nat.le_trans hlevel hdepth
  have hsize : maxDepth < UInt32.size := by decide
  exact ⟨hevent, level, hafter, hcount, hmax, Nat.lt_of_le_of_lt hmax hsize, hexit⟩

/-- A predicate on line 2 that holds a sum, a predicate with a path, and the calls of two
functions, before a product on line 8. -/
def nestedPredicates : SourceUnit where
  name := "main"
  tree := ⟨⟨"module", none, ⟨1, 0⟩⟩,
    .node ⟨Kind.predicate, none, ⟨2, 0⟩⟩
      (.node ⟨Kind.add, none, ⟨3, 0⟩⟩ .nil
      (.node ⟨Kind.predicate, none, ⟨4, 0⟩⟩
        (.node ⟨Kind.relativePathExpr, none, ⟨5, 0⟩⟩ (.leaf ⟨"//", none, ⟨5, 0⟩⟩ .nil) .nil)
      (.node ⟨Kind.functionCall, none, ⟨6, 0⟩⟩
        (.leaf ⟨"fn:data", some Field.name, ⟨6, 0⟩⟩ .nil)
      (.node ⟨Kind.functionCall, none, ⟨7, 0⟩⟩
        (.leaf ⟨"local:slow", some Field.name, ⟨7, 0⟩⟩ .nil) .nil))))
    (.node ⟨Kind.mult, none, ⟨8, 0⟩⟩ .nil .nil)⟩
  problems := []

/-- The sum and one of the calls are found at fault, the product is not, though the count is 7
to begin with.  The predicate on line 4 is found at fault, that on line 2 is not, and two
predicates are open when the one on line 4 has been entered. -/
theorem predicate_rules_nestedPredicates :
    nestedPredicates.tree.depth ≤ maxDepth ∧
    (∃ issues, (process nestedPredicates ExportMapper.initial
        [{ predicateOperationCheck with memory := (⟨7⟩ : PredicateDepth) }]).2 = some issues ∧
      (∃ issue ∈ issues, issue.rule = predicateOperation.key ∧ issue.line = 3) ∧
      (∃ issue ∈ issues, issue.rule = predicateOperation.key ∧ issue.line = 7) ∧
      ¬ ∃ issue ∈ issues, issue.rule = predicateOperation.key ∧ issue.line = 8) ∧
    (∃ issues, (process nestedPredicates ExportMapper.initial
        [{ predicatePathCheck with memory := (⟨7⟩ : PredicateDepth) }]).2 = some issues ∧
      (∃ issue ∈ issues, issue.rule = predicatePath.key ∧ issue.line = 4) ∧
      ¬ ∃ issue ∈ issues, issue.rule = predicatePath.key ∧ issue.line = 2) ∧
    ∃ call find, (nestedPredicates.callsOf ExportMapper.initial
        [predicateOperationCheck, { predicatePathCheck with memory := (⟨7⟩ : PredicateDepth) }]
        1)[5]? = some call ∧
      call.after = some { predicateCheck find with memory := ⟨2⟩ } := by
  have hdepth : nestedPredicates.tree.depth ≤ maxDepth := by decide
  obtain ⟨⟨operations, hrun, hoperations⟩, ⟨paths, hrun', hpaths⟩, hcount⟩ :=
    predicate_rules nestedPredicates hdepth ExportMapper.initial ⟨7⟩
  refine ⟨hdepth, ⟨operations, hrun, (hoperations _ 3).2 ⟨rfl, 3, by decide +kernel, rfl⟩,
    (hoperations _ 7).2 ⟨rfl, 7, by decide +kernel, rfl⟩, fun h => ?_⟩,
    ⟨paths, hrun', (hpaths _ 4).2 ⟨rfl, 4, by decide +kernel, rfl⟩, fun h => ?_⟩, ?_⟩
  · obtain ⟨-, _, ⟨s, hs, rfl, hcosts, hin⟩, hline⟩ := (hoperations _ 8).1 h
    revert s
    decide +kernel
  · obtain ⟨-, _, ⟨s, hs, rfl, hnavigates, hin⟩, hline⟩ := (hpaths _ 2).1 h
    revert s
    decide +kernel
  · have hmade : ((nestedPredicates.callsOf ExportMapper.initial
        [predicateOperationCheck, { predicatePathCheck with memory := (⟨7⟩ : PredicateDepth) }]
        1)[5]?).isSome = true := by decide +kernel
    obtain ⟨call, hcall⟩ := Option.isSome_iff_exists.1 hmade
    obtain ⟨-, level, hafter, hlevel, -⟩ := hcount _ _ 1 5 call rfl hcall
    have hopen : level = 2 := hlevel
    exact ⟨call, _, hcall, hopen ▸ hafter⟩

end Rules

end QueryAudit
