import Mathlib.Data.List.Nodup
import QueryAudit.Analyzer
import QueryAudit.Proofs.Data.Keyed

/-!
# QueryAudit.Proofs.Registry.Selection

The catalogue of rules after any number of registrations, and the rules that settings
select from it.  The catalogue is known from the list of registrations: a key stands where
it was registered first and has the rule that it was registered with last.

* `keys_registerAll`, `rule?_registerAll` — the catalogue after registrations;
* `active_eq_error_iff`, `active_eq_ok_iff` — which settings are refused, and which rules
  the others select;
* `registry_selection` — both, for every catalogue that the standard one grows into.
-/

namespace QueryAudit

universe u

namespace Registry

/-! ## registrations -/

/-- Register rules, one after the other. -/
def registerAll (registry : Registry) (rules : List Rule) : Registry :=
  rules.foldl register registry

theorem registerAll_standard (extra : List Rule) :
    standard.registerAll extra = empty.registerAll (standardRules ++ extra) :=
  (List.foldl_append ..).symm

/-- Registrations bind the rules under their keys. -/
theorem rules_registerAll (rules : List Rule) :
    (empty.registerAll rules).rules
      = Keyed.insertAll (rules.map fun rule => (rule.info.key, rule)) := by
  induction rules using List.reverseRecOn with
  | nil => rfl
  | append_singleton rules rule ih =>
      rw [registerAll, List.foldl_append, List.map_append, List.map_singleton,
        Keyed.insertAll_append, ← ih]
      rfl

/-- **The first registration** of a key decides on its place. -/
theorem keys_registerAll (rules : List Rule) :
    (empty.registerAll rules).keys = (rules.map (·.info.key)).eraseDups := by
  rw [keys, rules_registerAll, Keyed.keys_insertAll, List.map_map]
  rfl

theorem nodup_keys_registerAll (rules : List Rule) : (empty.registerAll rules).keys.Nodup := by
  rw [keys, rules_registerAll]
  exact Keyed.nodup_keys_insertAll _

/-- **The last registration** of a key decides on its rule. -/
theorem rule?_registerAll (rules : List Rule) (key : String) :
    (empty.registerAll rules).rule? key = rules.reverse.find? (·.info.key = key) := by
  rw [rule?, rules_registerAll, Keyed.find?_insertAll, ← List.map_reverse, List.find?_map,
    Option.map_map]
  exact Option.map_id'

/-- What is found under a key has the key. -/
theorem key_of_rule?_registerAll {rules : List Rule} {key : String} {rule : Rule}
    (h : (empty.registerAll rules).rule? key = some rule) : rule.info.key = key := by
  rw [rule?_registerAll] at h
  simpa using List.find?_some h

/-- The rules of the catalogue are what is found under its keys, in their order. -/
theorem values_registerAll (rules : List Rule) :
    (empty.registerAll rules).rules.values
      = (empty.registerAll rules).keys.filterMap (empty.registerAll rules).rule? :=
  Keyed.values_eq_filterMap (nodup_keys_registerAll rules)

theorem nodup_values_registerAll (rules : List Rule) :
    (empty.registerAll rules).rules.values.Nodup := by
  rw [values_registerAll]
  refine (nodup_keys_registerAll rules).filterMap ?_
  intro key key' rule hrule hrule'
  rw [← key_of_rule?_registerAll hrule, ← key_of_rule?_registerAll hrule']

/-! ## selection -/

section

variable (registry : Registry)

theorem isNone_rule?_iff (key : String) :
    (registry.rule? key).isNone = true ↔ key ∉ registry.keys := by
  rw [Option.isNone_iff_eq_none]
  exact Keyed.find?_eq_none_iff

/-- **Settings are refused** for the first of their keys that no rule has. -/
theorem active_eq_error_iff (config : Config) (e : UnknownRule) :
    registry.active config = .error e ↔ ∃ before after,
      config.disable ++ config.enable = before ++ e.key :: after ∧
        (∀ key ∈ before, key ∈ registry.keys) ∧ e.key ∉ registry.keys := by
  have hfirst : registry.active config = .error e
      ↔ (config.disable ++ config.enable).find? (fun key => (registry.rule? key).isNone)
        = some e.key := by
    rw [active]
    cases (config.disable ++ config.enable).find? fun key => (registry.rule? key).isNone with
    | none => simp
    | some key =>
        obtain ⟨other⟩ := e
        simp
  rw [hfirst, List.find?_eq_some_iff_append, isNone_rule?_iff]
  constructor
  · rintro ⟨hunknown, before, after, hkeys, hbefore⟩
    refine ⟨before, after, hkeys, fun key hkey => ?_, hunknown⟩
    have hknown := hbefore key hkey
    rwa [Bool.not_eq_true', ← Bool.not_eq_true, isNone_rule?_iff, not_not] at hknown
  · rintro ⟨before, after, hkeys, hbefore, hunknown⟩
    refine ⟨hunknown, before, after, hkeys, fun key hkey => ?_⟩
    rw [Bool.not_eq_true', ← Bool.not_eq_true, isNone_rule?_iff, not_not]
    exact hbefore key hkey

theorem isActive_iff {config : Config} {info : RuleInfo} :
    isActive config info = true ↔ info.key ∉ config.disable ∧
      (info.enabledByDefault = true ∨ info.key ∈ config.enable) := by
  simp [isActive]

/-- A sublist without repetitions is known from its members. -/
theorem eq_filter_of_sublist {α : Type u} {p : α → Bool} {all chosen : List α} (hnodup : all.Nodup)
    (hsublist : chosen.Sublist all) (hmem : ∀ a, a ∈ chosen ↔ a ∈ all ∧ p a = true) :
    chosen = all.filter p := by
  have hperm : chosen.Perm (all.filter p) := by
    rw [List.perm_ext_iff_of_nodup (hsublist.nodup hnodup) (hnodup.filter p)]
    simpa [List.mem_filter] using hmem
  have hchosen : chosen.filter p = chosen :=
    List.filter_eq_self.2 fun a ha => ((hmem a).1 ha).2
  have hbelow : chosen.Sublist (all.filter p) := by
    rw [← hchosen]
    exact hsublist.filter p
  exact hbelow.eq_of_length hperm.length_eq

/-- **Settings whose keys are known** select rules of the catalogue in its order: those that
are not disabled, and are enabled or active by default. -/
theorem active_eq_ok_iff (hnodup : registry.rules.values.Nodup) (config : Config)
    (rules : List Rule) :
    registry.active config = .ok rules ↔
      (∀ key ∈ config.disable ++ config.enable, key ∈ registry.keys) ∧
        rules.Sublist registry.rules.values ∧
        ∀ rule, rule ∈ rules ↔ rule ∈ registry.rules.values ∧
          rule.info.key ∉ config.disable ∧
          (rule.info.enabledByDefault = true ∨ rule.info.key ∈ config.enable) := by
  have hknown : (config.disable ++ config.enable).find? (fun key => (registry.rule? key).isNone)
      = none ↔ ∀ key ∈ config.disable ++ config.enable, key ∈ registry.keys := by
    rw [List.find?_eq_none]
    exact forall₂_congr fun key _ => by rw [isNone_rule?_iff, not_not]
  rw [← hknown, active]
  simp only [← isActive_iff]
  cases (config.disable ++ config.enable).find? fun key => (registry.rule? key).isNone with
  | some key => simp
  | none =>
      simp only [Except.ok.injEq, true_and]
      constructor
      · rintro rfl
        exact ⟨List.filter_sublist, fun rule => List.mem_filter⟩
      · rintro ⟨hsublist, hmem⟩
        have hchosen : rules = registry.rules.values.filter (isActive config ·.info) :=
          eq_filter_of_sublist hnodup hsublist hmem
        exact hchosen.symm

/-- Only which keys are disabled and which are enabled matters to what is selected. -/
theorem active_congr {config config' : Config}
    (hdisable : ∀ key, key ∈ config.disable ↔ key ∈ config'.disable)
    (henable : ∀ key, key ∈ config.enable ↔ key ∈ config'.enable)
    (hnodup : registry.rules.values.Nodup) (rules : List Rule) :
    registry.active config = .ok rules ↔ registry.active config' = .ok rules := by
  simp only [active_eq_ok_iff registry hnodup, List.mem_append, hdisable, henable]

theorem build_eq_ok_iff (config : Config) (checks : List Check) :
    registry.build config = .ok checks ↔ ∃ rules, registry.active config = .ok rules ∧
      checks = rules.map fun rule => rule.check config := by
  rw [build]
  cases registry.active config with
  | error e => simp
  | ok rules => simp [eq_comm]

theorem build_eq_error_iff (config : Config) (e : UnknownRule) :
    registry.build config = .error e ↔ registry.active config = .error e := by
  rw [build]
  cases registry.active config <;> simp

end

/-- The checks of an analysis are those that its catalogue builds. -/
theorem build_of_ofRegistry {config : Config} {registry : Registry} {a : Analyzer}
    (ha : Analyzer.ofRegistry config registry = .ok a) :
    registry.build config = .ok a.checks := by
  rw [build_eq_ok_iff]
  rw [Analyzer.ofRegistry] at ha
  cases hactive : registry.active config with
  | error e => simp [hactive] at ha
  | ok rules =>
      rw [hactive] at ha
      cases ha
      exact ⟨rules, rfl, rfl⟩

/-- **The catalogue** after any registrations on the standard one, and what settings select
from it.  Keys are distinct; each stands where it was registered first, and the rule that
is found under it, and that stands in its place, is the one registered last.  Settings
fail for the first key that no rule has, and otherwise select the rules that are not
disabled and are enabled or active by default, each once and in the order of the
catalogue, whatever the order and the repetitions of keys in the settings; the checks are
those of the selected rules. -/
theorem registry_selection (extra : List Rule) :
    (standard.registerAll extra).keys.Nodup ∧
      (standard.registerAll extra).keys
        = ((standardRules ++ extra).map (·.info.key)).eraseDups ∧
      (∀ key, (standard.registerAll extra).rule? key
        = (standardRules ++ extra).reverse.find? (·.info.key = key)) ∧
      (standard.registerAll extra).rules.values
        = (standard.registerAll extra).keys.filterMap (standard.registerAll extra).rule? ∧
      ∀ config : Config,
        (∀ e, (standard.registerAll extra).active config = .error e ↔ ∃ before after,
          config.disable ++ config.enable = before ++ e.key :: after ∧
            (∀ key ∈ before, key ∈ (standard.registerAll extra).keys) ∧
            e.key ∉ (standard.registerAll extra).keys) ∧
        (∀ rules, (standard.registerAll extra).active config = .ok rules ↔
          (∀ key ∈ config.disable ++ config.enable, key ∈ (standard.registerAll extra).keys) ∧
            rules.Sublist (standard.registerAll extra).rules.values ∧ rules.Nodup ∧
            ∀ rule, rule ∈ rules ↔ rule ∈ (standard.registerAll extra).rules.values ∧
              rule.info.key ∉ config.disable ∧
              (rule.info.enabledByDefault = true ∨ rule.info.key ∈ config.enable)) ∧
        (∀ config' : Config, (∀ key, key ∈ config.disable ↔ key ∈ config'.disable) →
          (∀ key, key ∈ config.enable ↔ key ∈ config'.enable) →
          ∀ rules, (standard.registerAll extra).active config = .ok rules
            ↔ (standard.registerAll extra).active config' = .ok rules) ∧
        (∀ e, (standard.registerAll extra).build config = .error e
          ↔ (standard.registerAll extra).active config = .error e) ∧
        (∀ checks, (standard.registerAll extra).build config = .ok checks ↔
          ∃ rules, (standard.registerAll extra).active config = .ok rules ∧
            checks = rules.map fun rule => rule.check config) ∧
        ∀ a, Analyzer.ofRegistry config (standard.registerAll extra) = .ok a →
          (standard.registerAll extra).build config = .ok a.checks := by
  rw [registerAll_standard]
  have hnodup := nodup_values_registerAll (standardRules ++ extra)
  refine ⟨nodup_keys_registerAll _, keys_registerAll _, rule?_registerAll _,
    values_registerAll _, fun config => ⟨active_eq_error_iff _ config, ?_, ?_,
      build_eq_error_iff _ config, build_eq_ok_iff _ config, ?_⟩⟩
  · intro rules
    rw [active_eq_ok_iff _ hnodup]
    constructor
    · rintro ⟨hknown, hsublist, hmem⟩
      exact ⟨hknown, hsublist, hsublist.nodup hnodup, hmem⟩
    · rintro ⟨hknown, hsublist, -, hmem⟩
      exact ⟨hknown, hsublist, hmem⟩
  · intro config' hdisable henable rules
    exact active_congr _ hdisable henable hnodup rules
  · exact fun a ha => build_of_ofRegistry ha

end Registry

end QueryAudit
