import QueryAudit.Proofs.Walk.Moment
import QueryAudit.Proofs.Walk.SelfContained
import QueryAudit.Rules.Transaction

/-!
# QueryAudit.Proofs.Rules.Transaction

The rules on module transactions against what stands in each of them.  Where no transaction
stands in another, what a check remembers when a transaction is left has been said by that
transaction: its entry has made the check forget everything else.

* `foldl_enter_mapping`, `foldl_enter_version` — what is remembered of the nodes of a
  transaction;
* `findings_mapping`, `findings_version` — what is found when a transaction is left;
* `transaction_rules` — the issues of the two rules.
-/

namespace QueryAudit

/-- No transaction of the unit stands in another. -/
def SourceUnit.FlatTransactions (u : SourceUnit) : Prop :=
  ∀ t ∈ u.tree.preorder, t.kind = Kind.moduleTransaction →
    ∀ d ∈ t.children.preorder, d.kind ≠ Kind.moduleTransaction

instance (u : SourceUnit) : Decidable u.FlatTransactions :=
  inferInstanceAs (Decidable (∀ t ∈ u.tree.preorder, _ → ∀ d ∈ t.children.preorder, _))

namespace Rules

/-! ## what transactions say -/

/-- A declaration of a dialect that maps functions. -/
def IsCapable (n : Node) : Prop :=
  n.kind = Kind.versionDecl ∧ n.unquotedField? Field.version = some "1.0-ml"

/-- A declaration of the mapping option. -/
def DeclaresMapping (n : Node) : Prop :=
  n.kind = Kind.optionDecl ∧ n.nameText? = some "xdmp:mapping"

/-- A declaration of a version that should not be declared any more. -/
def IsDeprecated (n : Node) : Prop :=
  n.kind = Kind.versionDecl ∧ n.unquotedField? Field.version = some deprecatedVersion

instance : DecidablePred IsCapable := fun _ => inferInstanceAs (Decidable (_ ∧ _))
instance : DecidablePred DeclaresMapping := fun _ => inferInstanceAs (Decidable (_ ∧ _))
instance : DecidablePred IsDeprecated := fun _ => inferInstanceAs (Decidable (_ ∧ _))

/-- A transaction whose dialect maps functions, without a word on the mapping option. -/
def MapsSilently (t : Node) : Prop :=
  t.kind = Kind.moduleTransaction ∧ (∃ d ∈ t.children.preorder, IsCapable d) ∧
    ∀ d ∈ t.children.preorder, ¬ DeclaresMapping d

/-- A transaction without a version. -/
def Unversioned (t : Node) : Prop :=
  t.kind = Kind.moduleTransaction ∧ ∀ d ∈ t.children.preorder, d.kind ≠ Kind.versionDecl

instance : DecidablePred MapsSilently := fun _ => inferInstanceAs (Decidable (_ ∧ _ ∧ _))
instance : DecidablePred Unversioned := fun _ => inferInstanceAs (Decidable (_ ∧ _))

/-! ## what is remembered -/

theorem MappingMemory.enter_transaction (m : MappingMemory) {t : Node}
    (ht : t.kind = Kind.moduleTransaction) : m.enter t = ⟨false, false, t.line⟩ := by
  simp [enter, ht]

/-- Within a transaction the flags are set and not taken back. -/
theorem MappingMemory.enter_of_ne (m : MappingMemory) {n : Node}
    (hn : n.kind ≠ Kind.moduleTransaction) :
    m.enter n = ⟨m.capable || decide (IsCapable n), m.declared || decide (DeclaresMapping n),
      m.line⟩ := by
  rw [enter]
  split
  · contradiction
  · next hversion =>
      have hcapable : IsCapable n ↔ n.unquotedField? Field.version = some "1.0-ml" :=
        and_iff_right hversion
      have hdeclares : ¬ DeclaresMapping n := by simp +decide [DeclaresMapping, hversion]
      split <;> simp_all
  · next hoption =>
      have hcapable : ¬ IsCapable n := by simp +decide [IsCapable, hoption]
      have hdeclares : DeclaresMapping n ↔ n.nameText? = some "xdmp:mapping" :=
        and_iff_right hoption
      split <;> simp_all
  · next hversion hoption =>
      have hcapable : ¬ IsCapable n := fun h => hversion h.1
      have hdeclares : ¬ DeclaresMapping n := fun h => hoption h.1
      simp [hcapable, hdeclares]

/-- **The nodes within a transaction** set the flags of what they declare. -/
theorem foldl_enter_mapping {nodes : List Node}
    (hnodes : ∀ n ∈ nodes, n.kind ≠ Kind.moduleTransaction) (m : MappingMemory) :
    nodes.foldl MappingMemory.enter m
      = ⟨m.capable || nodes.any (fun n => IsCapable n),
          m.declared || nodes.any (fun n => DeclaresMapping n), m.line⟩ := by
  induction nodes generalizing m with
  | nil => simp
  | cons n nodes ih =>
      obtain ⟨hn, hnodes⟩ := List.forall_mem_cons.1 hnodes
      rw [List.foldl_cons, ih hnodes, m.enter_of_ne hn]
      simp only [List.any_cons, Bool.or_assoc]

theorem VersionMemory.enter_transaction (m : VersionMemory) {t : Node}
    (ht : t.kind = Kind.moduleTransaction) : m.enter t = ⟨false, t.line⟩ := by
  simp [enter, ht]

theorem VersionMemory.enter_of_ne (m : VersionMemory) {n : Node}
    (hn : n.kind ≠ Kind.moduleTransaction) :
    m.enter n = ⟨m.declared || n.is Kind.versionDecl, m.line⟩ := by
  rw [enter]
  split
  · contradiction
  · next hversion => simp [Node.is, hversion]
  · next hversion =>
      have his : n.is Kind.versionDecl = false :=
        Bool.eq_false_iff.2 fun h => hversion (Node.is_eq_true_iff.1 h)
      simp [his]

/-- **The nodes within a transaction** set the flag when one of them is a version. -/
theorem foldl_enter_version {nodes : List Node}
    (hnodes : ∀ n ∈ nodes, n.kind ≠ Kind.moduleTransaction) (m : VersionMemory) :
    nodes.foldl VersionMemory.enter m
      = ⟨m.declared || nodes.any (·.is Kind.versionDecl), m.line⟩ := by
  induction nodes generalizing m with
  | nil => simp
  | cons n nodes ih =>
      obtain ⟨hn, hnodes⟩ := List.forall_mem_cons.1 hnodes
      rw [List.foldl_cons, ih hnodes, m.enter_of_ne hn]
      simp only [List.any_cons, Bool.or_assoc]

/-! ## what is found -/

/-- What the check of function mapping finds at an event. -/
def foundMapping (m : MappingMemory) : Event → List Finding
  | .exit n =>
    if n.is Kind.moduleTransaction && m.capable && !m.declared then
      [functionMapping.finding m.line
        "Declare the xdmp:mapping option when using the 1.0-ml dialect"]
    else []
  | _ => []

theorem selfContained_functionMappingCheck :
    functionMappingCheck.SelfContained (Event.atEnter MappingMemory.enter) foundMapping := by
  intro context event m
  cases event <;> rfl

/-- What the check of versions finds at an event. -/
def foundVersion (m : VersionMemory) : Event → List Finding
  | .enter n =>
    if n.is Kind.versionDecl && n.unquotedField? Field.version == some deprecatedVersion then
      [version.finding n.line ("Avoid the deprecated XQuery version " ++ deprecatedVersion)]
    else []
  | .exit n =>
    if n.is Kind.moduleTransaction && !m.declared then
      [version.finding m.line "Declare the XQuery version"]
    else []
  | _ => []

theorem selfContained_versionCheck :
    versionCheck.SelfContained (Event.atEnter VersionMemory.enter) foundVersion := by
  intro context event m
  cases event <;> rfl

section

variable {u : SourceUnit} {t : Node} {before after : List Event}
  (hflat : u.FlatTransactions) (h : u.events = before ++ .exit t :: after)
include hflat h

/-- **When a node is left** the check of function mapping finds it at fault by what it is and
what stands in it, whatever was remembered before. -/
theorem findings_mapping (m : MappingMemory) :
    foundMapping (before.foldl (Event.atEnter MappingMemory.enter) m) (.exit t)
      = if MapsSilently t then
          [functionMapping.finding t.line
            "Declare the xdmp:mapping option when using the 1.0-ml dialect"]
        else [] := by
  rw [foundMapping]
  by_cases ht : t.kind = Kind.moduleTransaction
  · obtain ⟨m', hmemory⟩ := SourceUnit.foldl_atEnter_of_exit h m
    have hinside := hflat t (SourceUnit.mem_preorder_of_exit h) ht
    rw [hmemory, m'.enter_transaction ht, foldl_enter_mapping hinside]
    refine if_congr ?_ rfl rfl
    simp [MapsSilently, Node.is, ht]
  · rw [if_neg (by simp [Node.is, ht]), if_neg fun hmaps => ht hmaps.1]

/-- **When a node is left** the check of versions finds it at fault by what it is and what
stands in it, whatever was remembered before. -/
theorem findings_version (m : VersionMemory) :
    foundVersion (before.foldl (Event.atEnter VersionMemory.enter) m) (.exit t)
      = if Unversioned t then [version.finding t.line "Declare the XQuery version"]
        else [] := by
  rw [foundVersion]
  by_cases ht : t.kind = Kind.moduleTransaction
  · obtain ⟨m', hmemory⟩ := SourceUnit.foldl_atEnter_of_exit h m
    have hinside := hflat t (SourceUnit.mem_preorder_of_exit h) ht
    rw [hmemory, m'.enter_transaction ht, foldl_enter_version hinside]
    refine if_congr ?_ rfl rfl
    simp [Unversioned, Node.is, ht]
  · rw [if_neg (by simp [Node.is, ht]), if_neg fun hunversioned => ht hunversioned.1]

end

/-! ## the issues -/

section

variable {ρ : Type} [Resolver ρ] {u : SourceUnit} (hflat : u.FlatTransactions) (r : ρ)
include hflat

theorem blamesLines_functionMappingCheck (m : MappingMemory) :
    BlamesLines (process u r [{ functionMappingCheck with memory := m }]).2 functionMapping.key
      fun line => ∃ t ∈ u.tree.preorder, t.line = line ∧ MapsSilently t := by
  have hlines : BlamesLines (process u r [{ functionMappingCheck with memory := m }]).2
      functionMapping.key fun line =>
        ∃ t ∈ u.tree.preorder, t.line = line ∧ (False ∨ MapsSilently t) := by
    refine selfContained_functionMappingCheck.blamesLines_of_nodes (fun _ => False) MapsSilently
      (fun before n after hevents => blamesIf_nil id) (fun before t after hevents => ?_)
      (fun m event henter hexit => ?_) r
    · have hfound := findings_mapping hflat hevents m
      exact hfound ▸ blamesIf_ite
    · cases event with
      | exit n => exact absurd rfl (hexit n)
      | _ => rfl
  simpa only [false_or] using hlines

theorem blamesLines_versionCheck (m : VersionMemory) :
    BlamesLines (process u r [{ versionCheck with memory := m }]).2 version.key
      fun line => ∃ n ∈ u.tree.preorder, n.line = line ∧ (IsDeprecated n ∨ Unversioned n) := by
  refine selfContained_versionCheck.blamesLines_of_nodes IsDeprecated Unversioned
    (fun before n after hevents => ?_) (fun before t after hevents => ?_)
    (fun m event henter hexit => ?_) r
  · have hdeprecated : IsDeprecated n ↔ (n.is Kind.versionDecl
        && n.unquotedField? Field.version == some deprecatedVersion) = true := by
      simp [IsDeprecated, Node.is]
    rw [hdeprecated]
    exact blamesIf_ite
  · have hfound := findings_version hflat hevents m
    exact hfound ▸ blamesIf_ite
  · cases event with
    | enter n => exact absurd rfl (henter n)
    | exit n => exact absurd rfl (hexit n)
    | _ => rfl

end

/-- **The rules on transactions**, where no transaction stands in another and whatever the
checks remember of earlier units.  Function mapping is found at fault at the transactions
whose dialect maps functions while nothing in them declares the option; versions are found
at fault at the transactions that declare none, and at the declarations of the deprecated
one.  Among any other checks, what such a check finds when a transaction is left depends on
that transaction alone. -/
theorem transaction_rules {ρ : Type} [Resolver ρ] (u : SourceUnit) (hflat : u.FlatTransactions)
    (r : ρ) (mapping : MappingMemory) (versions : VersionMemory) :
    BlamesLines (process u r [{ functionMappingCheck with memory := mapping }]).2
        functionMapping.key
        (fun line => ∃ t ∈ u.tree.preorder, t.line = line ∧ MapsSilently t) ∧
    BlamesLines (process u r [{ versionCheck with memory := versions }]).2 version.key
        (fun line => ∃ n ∈ u.tree.preorder,
          n.line = line ∧ (IsDeprecated n ∨ Unversioned n)) ∧
    ∀ (checks : List Check) (i k : Nat) (call : Call) (t : Node),
      (u.callsOf r checks i)[k]? = some call → call.event = .exit t →
      (checks[i]? = some { functionMappingCheck with memory := mapping } →
        call.findings = if MapsSilently t then
            [functionMapping.finding t.line
              "Declare the xdmp:mapping option when using the 1.0-ml dialect"]
          else []) ∧
      (checks[i]? = some { versionCheck with memory := versions } →
        call.findings = if Unversioned t then
            [version.finding t.line "Declare the XQuery version"]
          else []) := by
  refine ⟨blamesLines_functionMappingCheck hflat r mapping,
    blamesLines_versionCheck hflat r versions, fun checks i k call t hk hexit => ⟨?_, ?_⟩⟩
  · intro hi
    obtain ⟨hevent, -, -, hfindings⟩ :=
      selfContained_functionMappingCheck.getElem?_callsOf hi hk
    rw [hexit] at hevent hfindings
    exact hfindings.trans (findings_mapping hflat (eq_take_append_cons_drop hevent) mapping)
  · intro hi
    obtain ⟨hevent, -, -, hfindings⟩ := selfContained_versionCheck.getElem?_callsOf hi hk
    rw [hexit] at hevent hfindings
    exact hfindings.trans (findings_version hflat (eq_take_append_cons_drop hevent) versions)

/-- A transaction on line 5 that declares a version that maps functions, below its prolog. -/
def silentTransaction : Node :=
  ⟨⟨Kind.moduleTransaction, none, ⟨5, 0⟩⟩,
    .node ⟨"prolog", none, ⟨5, 0⟩⟩
      (.node ⟨Kind.versionDecl, none, ⟨6, 0⟩⟩
        (.leaf ⟨"'1.0-ml'", some Field.version, ⟨6, 0⟩⟩ .nil) .nil) .nil⟩

/-- Three transactions, of which the first declares the mapping option, and behind them the
declaration of a deprecated version. -/
def mixedTransactions : SourceUnit where
  name := "main"
  tree := ⟨⟨"module", none, ⟨1, 0⟩⟩,
    .node ⟨Kind.moduleTransaction, none, ⟨2, 0⟩⟩
      (.node ⟨Kind.versionDecl, none, ⟨3, 0⟩⟩
        (.leaf ⟨"'1.0-ml'", some Field.version, ⟨3, 0⟩⟩ .nil)
      (.node ⟨Kind.optionDecl, none, ⟨4, 0⟩⟩
        (.leaf ⟨"xdmp:mapping", some Field.name, ⟨4, 0⟩⟩ .nil) .nil))
    (.cons (.node silentTransaction)
    (.node ⟨Kind.moduleTransaction, none, ⟨8, 0⟩⟩ .nil
    (.node ⟨Kind.versionDecl, none, ⟨9, 0⟩⟩
      (.leaf ⟨"'0.9-ml'", some Field.version, ⟨9, 0⟩⟩ .nil) .nil)))⟩
  problems := []

/-- The second transaction maps functions silently and the first does not, whatever the check
remembers to begin with.  The third has no version, the second has one, and the version on
line 9 is found at fault outside of all transactions. -/
theorem transaction_rules_mixedTransactions :
    mixedTransactions.FlatTransactions ∧
    (∃ issues, (process mixedTransactions ExportMapper.initial
        [{ functionMappingCheck with memory := (⟨true, false, 40⟩ : MappingMemory) }]).2
          = some issues ∧
      (∃ issue ∈ issues, issue.rule = functionMapping.key ∧ issue.line = 5) ∧
      ¬ ∃ issue ∈ issues, issue.rule = functionMapping.key ∧ issue.line = 2) ∧
    (∃ issues, (process mixedTransactions ExportMapper.initial
        [{ versionCheck with memory := (⟨true, 40⟩ : VersionMemory) }]).2 = some issues ∧
      (∃ issue ∈ issues, issue.rule = version.key ∧ issue.line = 8) ∧
      (∃ issue ∈ issues, issue.rule = version.key ∧ issue.line = 9) ∧
      ¬ ∃ issue ∈ issues, issue.rule = version.key ∧ issue.line = 5) ∧
    ∃ call, (mixedTransactions.callsOf ExportMapper.initial [versionCheck,
        { functionMappingCheck with memory := (⟨true, false, 40⟩ : MappingMemory) }] 1)[13]?
          = some call ∧
      call.event = .exit silentTransaction ∧ call.findings ≠ [] := by
  have hflat : mixedTransactions.FlatTransactions := by decide +kernel
  obtain ⟨⟨silent, hrun, hsilent⟩, ⟨versions, hrun', hversions⟩, hcalls⟩ :=
    transaction_rules mixedTransactions hflat ExportMapper.initial ⟨true, false, 40⟩ ⟨true, 40⟩
  refine ⟨hflat, ⟨silent, hrun, (hsilent _ 5).2 ⟨rfl, 5, by decide +kernel, rfl⟩, fun h => ?_⟩,
    ⟨versions, hrun', (hversions _ 8).2 ⟨rfl, 8, by decide +kernel, rfl⟩,
      (hversions _ 9).2 ⟨rfl, 9, by decide +kernel, rfl⟩, fun h => ?_⟩, ?_⟩
  · obtain ⟨-, _, ⟨t, ht, rfl, hmaps⟩, hline⟩ := (hsilent _ 2).1 h
    revert t
    decide +kernel
  · obtain ⟨-, _, ⟨t, ht, rfl, hfault⟩, hline⟩ := (hversions _ 5).1 h
    revert t
    decide +kernel
  · have hmade : ((mixedTransactions.callsOf ExportMapper.initial [versionCheck,
        { functionMappingCheck with memory := (⟨true, false, 40⟩ : MappingMemory) }]
        1)[13]?).map Call.event = some (.exit silentTransaction) := by decide +kernel
    obtain ⟨call, hcall, hevent⟩ := Option.map_eq_some_iff.1 hmade
    have hfindings := (hcalls _ 1 13 call silentTransaction hcall hevent).1 rfl
    rw [if_pos (by decide +kernel)] at hfindings
    exact ⟨call, hcall, hevent, by simp [hfindings]⟩

end Rules

end QueryAudit
