import QueryAudit.Check
import QueryAudit.Resolver
import QueryAudit.SourceUnit

/-!
# QueryAudit.Walk

The walk over a unit.  A tree gives a list of events; at each of them the
resolver is told first, and then the checks in their order, each with what the
resolver knows by then.

* `Node.events_eq` — a node is entered, then its child nodes are walked from left
  to right, then it is left;
* `views_append` — what is seen along a walk does not depend on what follows.
-/

namespace QueryAudit

/-! ## events -/

/-- The events of the nodes of a forest.  Leaves are passed over. -/
def Forest.events : Forest → List Event
  | .nil => []
  | .leaf _ rest => rest.events
  | .node label children rest =>
    .enter ⟨label, children⟩ :: (children.events ++ .exit ⟨label, children⟩ :: rest.events)

/-- The events of a node and of all nodes below it. -/
def Node.events (n : Node) : List Event := .enter n :: (n.children.events ++ [.exit n])

theorem Forest.events_eq_flatMap (f : Forest) : f.events = f.nodes.flatMap Node.events := by
  induction f with
  | nil => rfl
  | leaf l rest ih => simpa [events, nodes] using ih
  | node label children rest _ ih => simp [events, nodes, Node.events, ih]

/-- A node is entered, its child nodes are walked in turn, and it is left. -/
theorem Node.events_eq (n : Node) :
    n.events = .enter n :: (n.childNodes.flatMap Node.events ++ [.exit n]) := by
  rw [Node.events, Forest.events_eq_flatMap]
  rfl

/-- The events of the walk over a tree. -/
def walkEvents (root : Node) : List Event :=
  .enterSource root :: (root.events ++ [.exitSource root])

/-- The events of a unit: the walk over its tree, then its problems. -/
def SourceUnit.events (u : SourceUnit) : List Event :=
  walkEvents u.tree ++ [.report (.ofProblems u.problems)]

/-! ## the resolver alone -/

section

variable {ρ : Type} [Resolver ρ]

/-- Tell a resolver of an event. -/
def Resolver.on (event : Event) (r : ρ) : ρ :=
  match event with
  | .enterSource _ => enterSource r
  | .enter n => enter n r
  | .exit n => exit n r
  | .exitSource _ => exitSource r
  | .report _ => r

/-- Walk a tree with the resolver alone. -/
def mapTree (root : Node) (r : ρ) : ρ :=
  (walkEvents root).foldl (fun r event => Resolver.on event r) r

/-- What a check sees along a list of events: each event with the names that are
known after it. -/
def views (r : ρ) : List Event → List (Event × SymbolTable)
  | [] => []
  | event :: events =>
    let r := Resolver.on event r
    (event, Resolver.symbols r) :: views r events

/-! ## resolver and checks -/

/-- Tell every check of one event, in order.  `none` when one of them crashes. -/
def deliver (unit : String) (symbols : SymbolTable) (event : Event) :
    List Check → IssueLog → Option (List Check × IssueLog)
  | [], log => some ([], log)
  | check :: checks, log =>
    match check.step ⟨unit, symbols, log.issues⟩ event check.memory with
    | none => none
    | some (memory, findings) =>
      match deliver unit symbols event checks (log.createAll findings) with
      | none => none
      | some (checks, log) => some ({ check with memory } :: checks, log)

/-- Tell the resolver and the checks of events, one after the other.  When a check
crashes the walk ends there, with the resolver as it was. -/
def runEvents (unit : String) (r : ρ) (checks : List Check) (log : IssueLog) :
    List Event → ρ × Option IssueLog
  | [] => (r, some log)
  | event :: events =>
    let r := Resolver.on event r
    match deliver unit (Resolver.symbols r) event checks log with
    | none => (r, none)
    | some (checks, log) => runEvents unit r checks log events

/-- Walk a unit with the resolver and all checks, then hand out its problems.
The issues are missing when a check crashed. -/
def process (u : SourceUnit) (r : ρ) (checks : List Check) : ρ × Option (List Issue) :=
  let (r, log) := runEvents u.name r checks .empty u.events
  (r, log.map IssueLog.issues)

/-- What is seen along a walk does not depend on what follows. -/
theorem views_append (r : ρ) (as bs : List Event) :
    views r (as ++ bs)
      = views r as ++ views (as.foldl (fun r event => Resolver.on event r) r) bs := by
  induction as generalizing r with
  | nil => rfl
  | cons a as ih => simp [views, ih]

end

end QueryAudit
