import QueryAudit.Rules.Call
import QueryAudit.Rules.Condition
import QueryAudit.Rules.Diagnostics
import QueryAudit.Rules.Path
import QueryAudit.Rules.Predicate
import QueryAudit.Rules.Transaction
import QueryAudit.Rules.Typing

/-!
# QueryAudit.Registry

The catalogue of rules, in the order in which they report, and the choice of the
active ones.

* `rule?_register` — a registered rule is found under its key, and registering
  it changes no other;
* `keys_register` — a new rule goes to the end, a known one keeps its place.
-/

namespace QueryAudit

/-- The known rules by their keys. -/
structure Registry where
  rules : Keyed String Rule

/-- A key in the settings is no rule. -/
structure UnknownRule where
  key : String
deriving DecidableEq, Repr

/-- Which key no rule has. -/
def UnknownRule.message (e : UnknownRule) : String := "unknown rule '" ++ e.key ++ "'"

namespace Registry

/-- The catalogue without rules. -/
def empty : Registry := ⟨.empty⟩

/-- Add a rule, in the place of the one with the same key if there is one. -/
def register (registry : Registry) (rule : Rule) : Registry :=
  ⟨registry.rules.insert rule.info.key rule⟩

/-- The rules that everyone has. -/
def standardRules : List Rule :=
  [⟨Rules.dynamicCall, fun _ => Rules.dynamicCallCheck⟩,
    ⟨Rules.booleanCondition, fun _ => Rules.booleanConditionCheck⟩,
    ⟨Rules.functionMapping, fun _ => Rules.functionMappingCheck⟩,
    ⟨Rules.predicateOperation, fun _ => Rules.predicateOperationCheck⟩,
    ⟨Rules.orderRange, fun _ => Rules.orderRangeCheck⟩,
    ⟨Rules.parseProblem, fun config => Rules.parseProblemCheck config.allowedMessages⟩,
    ⟨Rules.flworTyping, fun _ => Rules.flworTypingCheck⟩,
    ⟨Rules.functionTyping, fun _ => Rules.functionTypingCheck⟩,
    ⟨Rules.variableTyping, fun _ => Rules.variableTypingCheck⟩,
    ⟨Rules.descendantStep, fun _ => Rules.descendantStepCheck⟩,
    ⟨Rules.predicatePath, fun _ => Rules.predicatePathCheck⟩,
    ⟨Rules.textStep, fun _ => Rules.textStepCheck⟩,
    ⟨Rules.version, fun _ => Rules.versionCheck⟩,
    ⟨Rules.logCall, fun _ => Rules.logCallCheck⟩]

/-- The catalogue of the standard rules. -/
def standard : Registry := standardRules.foldl register empty

/-- The keys of the rules, in the order of the catalogue. -/
def keys (registry : Registry) : List String := registry.rules.keys

/-- What is known about the rules, in order. -/
def infos (registry : Registry) : List RuleInfo := registry.rules.values.map Rule.info

/-- The rule with a key. -/
def rule? (registry : Registry) (key : String) : Option Rule := registry.rules.find? key

/-- What is known about the rule with a key. -/
def info? (registry : Registry) (key : String) : Option RuleInfo :=
  (registry.rule? key).map Rule.info

/-- Whether the settings make a rule active.  Being off wins over being on. -/
def isActive (config : Config) (info : RuleInfo) : Bool :=
  !config.disable.contains info.key
    && (info.enabledByDefault || config.enable.contains info.key)

/-- The active rules, in order.  Every key in the settings has to be a rule. -/
def active (registry : Registry) (config : Config) : Except UnknownRule (List Rule) :=
  match (config.disable ++ config.enable).find? fun key => (registry.rule? key).isNone with
  | some key => .error ⟨key⟩
  | none => .ok (registry.rules.values.filter fun rule => isActive config rule.info)

/-- A fresh check of every active rule, in order. -/
def build (registry : Registry) (config : Config) : Except UnknownRule (List Check) :=
  match registry.active config with
  | .error e => .error e
  | .ok rules => .ok (rules.map fun rule => rule.check config)

/-- A registered rule is found under its key, and no other key is touched. -/
theorem rule?_register (registry : Registry) (rule : Rule) (key : String) :
    (registry.register rule).rule? key
      = if rule.info.key = key then some rule else registry.rule? key :=
  registry.rules.find?_insert rule.info.key key rule

/-- A new rule goes to the end, and a known one keeps its place. -/
theorem keys_register (registry : Registry) (rule : Rule) :
    (registry.register rule).keys
      = if rule.info.key ∈ registry.keys then registry.keys
        else registry.keys ++ [rule.info.key] :=
  registry.rules.keys_insert rule.info.key rule

end Registry

end QueryAudit
