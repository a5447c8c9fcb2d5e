import ObjectValidation.Constraint.Message
import ObjectValidation.Metadata.Assembly
import ObjectValidation.Validation.Config
import ObjectValidation.Validation.Violation
/-!
# Calls

One call validates one thing. What it depends on does not change while it runs; what it has found
and done so far is its progress, which is kept when the call fails. A journal lists what the call
checked, consulted and asked, in order.
-/

namespace ObjectValidation

/-- What is remembered from one call to the next. -/
structure Memory where
  metadata : MetadataCache := []
  sequences : SequenceCache := []

/-- What a call depends on. -/
structure Call where
  registry : Registry
  evaluators : Evaluators
  config : Config
  store : Store
  root : Option ObjectId
  rootType : TypeName
  arguments : Option (List Value) := none
  returned : Option Value := none
  /-- How many cascades within cascades the call may enter before it is given up. -/
  depth : Nat

/-- Something that a call did. -/
inductive Event
  /-- Began to check what an object, or a type without an object, demands for a group. -/
  | began (object : Option ObjectId) (path : Path) (group : TypeName)
  /-- Checked a constraint of an object, or of a type without an object, on a value for a group. -/
  | checked (object : Option ObjectId) (path : Path) (constraint : BoundConstraint)
      (group : TypeName) (value : Value)
  /-- Consulted the evaluator of a kind of constraints. -/
  | consulted (kind : String) (site : EvaluationSite) (value : Value) (isStandard : Bool)
  /-- Asked the provider of a type. -/
  | asked (type : TypeName) (object : Option ObjectId)

/-- What the default group of an object stands for: its groups, and the order that runs them. -/
structure DefaultMeaning where
  groups : List TypeName
  order : Order

/-- What a call has found and done so far. -/
structure Progress where
  memory : Memory
  violations : List Violation := []
  processedGroups : List (Option ObjectId × TypeName) := []
  processedPaths : List (Option ObjectId × Path) := []
  /-- Constraints of several groups that are done, with the objects and paths they are done at. -/
  processedConstraints : List (Option ObjectId × Path × TypeName × Nat) := []
  /-- The objects whose validation is under way, the innermost first. -/
  chain : List ObjectId := []
  defaults : List ((Option ObjectId × TypeName) × DefaultMeaning) := []
  journal : List Event := []

/-- Why a call ends before its time. -/
inductive Halt
  | failed (error : Error)
  /-- The cascades within cascades are deeper than the call may go. -/
  | exhausted
  deriving DecidableEq, Repr

/-- A computation of a call. -/
abbrev Run := ExceptT Halt (StateM Progress)

namespace Run

/-- Ends the call with an error. -/
def fail {α : Type} (e : Error) : Run α := throw (.failed e)

/-- The answer of a computation that needs nothing of the call. -/
def ofExcept {α : Type} : Except Error α → Run α
  | .ok a => pure a
  | .error e => fail e

/-- Adds an event to the journal. -/
def record (e : Event) : Run Unit := modify fun p => { p with journal := p.journal ++ [e] }

/-- Runs a computation on the sequences remembered. -/
def expanding {α : Type} (x : Expanding α) : Run α := do
  let p ← get
  let (answer, sequences) := (x.run.run p.memory.sequences).run
  set { p with memory := { p.memory with sequences } }
  ofExcept answer

end Run

namespace Call

variable (c : Call)

/-- The metadata of a type. -/
def metadataOf (type : TypeName) : Run Metadata := do
  let p ← get
  let (answer, metadata) :=
    ((Metadata.obtain c.registry c.config.methodRules type).run.run p.memory.metadata).run
  set { p with memory := { p.memory with metadata } }
  Run.ofExcept answer

/-- Whether the call has found all it looks for. -/
def isStopped : Run Bool := return c.config.failFast && !(← get).violations.isEmpty

/-- Runs a step for each item in turn until the call has found all it looks for. -/
def each {α : Type} (xs : List α) (step : α → Run Unit) : Run Unit :=
  xs.forM fun x => do
    unless ← c.isStopped do step x

/-- Runs a check for each item in turn until the call has found all it looks for. The answer is
whether all checks that ran succeeded. -/
def allHold {α : Type} (xs : List α) (check : α → Run Bool) : Run Bool :=
  xs.foldlM (fun ok x => do
    if ← c.isStopped then return ok
    let holds ← check x
    return ok && holds) true

/-- The order that a request asks for, which is that of the default group if it lists no group. -/
def orderOf (groups : List TypeName) : Run Order :=
  Run.expanding <| Order.ofGroups c.registry <|
    if groups.isEmpty then [TypeName.defaultGroup] else groups

/-- The groups that the default group of an object stands for. -/
def defaultGroups (object : Option ObjectId) (m : Metadata) : Run (List TypeName) :=
  match m.default with
  | .ordinary => return [TypeName.defaultGroup]
  | .listed groups _ => return groups
  | .provided provider => do
    Run.record (.asked m.type object)
    Run.ofExcept (redefinition m.type (provider.groups c.store m.type object))

/-- What the default group of an object stands for; a provider is asked at most once. -/
def defaultMeaning (object : Option ObjectId) (m : Metadata) : Run DefaultMeaning := do
  match (← get).defaults.lookup (object, m.type) with
  | some d => return d
  | none =>
    let groups ← c.defaultGroups object m
    let order ← Run.ofExcept (m.defaultOrder c.registry groups)
    let d : DefaultMeaning := { groups, order }
    modify fun p => { p with defaults := p.defaults ++ [((object, m.type), d)] }
    return d

end Call

end ObjectValidation
