import ObjectValidation.Validation.Cascade
/-!
# Operations

What can be validated: an object, one property of an object or of an object it leads to, a value
that a property might get, and the arguments and the returned value of an executable.
-/

namespace ObjectValidation

/-- Everything that validations use. -/
structure Validator where
  registry : Registry
  evaluators : Evaluators
  config : Config
  store : Store
  memory : Memory

/-- The outcome of a call: its answer, what is remembered afterwards, and what it did. -/
structure Report (α : Type) where
  answer : Except Halt α
  memory : Memory
  journal : List Event

namespace Validator

/-- How deep the calls of a validator may cascade: far deeper than a chain of cascades is that meets
each object for each group once. -/
def depth (v : Validator) : Nat :=
  Nat.pow (v.store.objects.length + 2) 2 * Nat.pow (v.registry.size + 2) 2

/-- A call that starts at a root. -/
def call (v : Validator) (root : Option ObjectId) (rootType : TypeName) : Call where
  registry := v.registry
  evaluators := v.evaluators
  config := v.config
  store := v.store
  root
  rootType
  depth := v.depth

/-- Runs the computation of a call. A root object is under way from the start. -/
def run {α : Type} (v : Validator) (c : Call) (x : Run α) : Report α :=
  let (answer, p) := (ExceptT.run x).run { memory := v.memory, chain := c.root.toList }
  { answer, memory := p.memory, journal := p.journal }

end Validator

/-- The value at a position of a container; null if there is none. A number is a key as well. -/
def Value.select (v : Value) (position : Position) : Value :=
  match v.unwrapped, position with
  | .list items, .index n => items[n]?.getD .null
  | .map entries, .key k => (Entries.get? k entries).getD .null
  | .map entries, .index n => (Entries.get? (toString n) entries).getD .null
  | _, _ => .null

namespace Call

variable (c : Call)

/-- Runs an order on a subject and answers what it finds. -/
def findings (s : Subject) (o : Order) : Run (List Violation) := do
  c.runSubject c.visit s o
  return (← get).violations

/-- Fails if a type has no property of the name. -/
def requireProperty (m : Metadata) (type : TypeName) (name : String) : Run Unit :=
  if m.hasProperty name then return else Run.fail (.unknownProperty type name)

/-- The steps that the nodes of a path stand for, up to its last property: the name of a property,
and the position of the element to go on from where the property is a container. -/
def stepsOf (nodes : List PathNode) : List (Option String × Option Position) :=
  (nodes.dropLast.zip nodes.tail).map fun (node, next) => (node.name, next.position)

/-- Goes from an object along the steps of a path, whose text is given for messages. Answers the
object reached and its path, or nothing if a step leads to something that is no object. -/
def navigate (text : String) (object : ObjectId) (path : Path) :
    List (Option String × Option Position) → Run (Option (ObjectId × Path))
  | [] => return some (object, path)
  | (none, _) :: _ => Run.fail (.invalidPath text .unnamedStep)
  | (some name, position) :: rest => do
    let type := c.store.typeOf object
    requireProperty (← c.metadataOf type) type name
    let read := c.store.property object name
    let value := (position.map read.select).getD read
    let path := path.property name
    let path := if position.isSome then path.element position else path
    match value.unwrapped with
    | .object next => navigate text next path rest
    | _ => return none

/-! ### Objects and values -/

/-- Validates an object. -/
def validate (object : ObjectId) (groups : List TypeName) : Run (List Violation) := do
  let metadata ← c.metadataOf (c.store.typeOf object)
  let order ← c.orderOf groups
  c.findings { object := some object, metadata, path := .root } order

/-- Validates the property that a path leads to, without cascading into its value. -/
def validateProperty (object : ObjectId) (text : String) (groups : List TypeName) :
    Run (List Violation) := do
  match Path.read text with
  | .error fault => Run.fail (.invalidPath text fault)
  | .ok path =>
    match path.nodes.getLast?.bind (·.name) with
    | none => Run.fail (.invalidPath text .unnamedLeaf)
    | some property =>
      match ← c.navigate text object .root (stepsOf path.nodes) with
      | none => return []
      | some (object, path) =>
        let type := c.store.typeOf object
        let metadata ← c.metadataOf type
        requireProperty metadata type property
        let order ← c.orderOf groups
        c.findings { object := some object, metadata, path, only := some (property, none) } order

/-- Validates a value as that of a property of a type, without cascading into it. -/
def validateValue (type : TypeName) (property : String) (value : Value)
    (groups : List TypeName) : Run (List Violation) := do
  let metadata ← c.metadataOf type
  requireProperty metadata type property
  let order ← c.orderOf groups
  c.findings { object := none, metadata, path := .root, only := some (property, some value) } order

/-! ### Executables -/

/-- Checks what an executable demands of its arguments for one group. What it demands of all
arguments together is checked only if no argument on its own is found wrong. -/
def checkArguments (s : Subject) (e : ExecutableMetadata) (path : Path) (values : List Value)
    (group : TypeName) : Run Unit := do
  let before ← violationCount
  c.each (e.parameters.zip values) fun (p, value) =>
    c.each p.constraints fun b => do
      let _ ← c.checkConstraint s group value (path.property p.name) b
  if (← violationCount) = before then
    c.each e.crossParameter fun b => do
      let _ ← c.checkConstraint s group (.list values) path.crossParameter b

/-- The steps of the cascades from arguments for a group. -/
def argumentSteps (e : ExecutableMetadata) (path : Path) (values : List Value)
    (group : TypeName) : List CascadeStep :=
  (e.parameters.zip values).flatMap fun (p, value) =>
    p.element.cascade (path.property p.name) group value

/-- Validates the arguments of an executable of a subject. -/
def validateArguments (s : Subject) (e : ExecutableMetadata) (values : List Value)
    (groups : List TypeName) : Run (List Violation) := do
  if values.length ≠ e.parameters.length then
    Run.fail (.parameterCount e.signature e.parameters.length values.length)
  if !c.config.executables.covers e.kind then return []
  let order ← c.orderOf groups
  let path := Path.executable e.signature.name
  c.runOrder order (c.runExecutableGroup s.object s.metadata (c.checkArguments s e path values))
    fun group => c.each (argumentSteps e path values group) c.visit
  return (← get).violations

/-- Checks what an executable demands of the value it returns for one group. -/
def checkReturned (s : Subject) (e : ExecutableMetadata) (path : Path) (value : Value)
    (group : TypeName) : Run Unit := do
  let _ ← c.allHold e.returnConstraints (c.checkConstraint s group value path)

/-- Validates the value that an executable of a subject returned. -/
def validateReturned (s : Subject) (e : ExecutableMetadata) (value : Value)
    (groups : List TypeName) : Run (List Violation) := do
  if !c.config.executables.covers e.kind then return []
  let order ← c.orderOf groups
  let path := (Path.executable e.signature.name).returnValue
  c.runOrder order (c.runExecutableGroup s.object s.metadata (c.checkReturned s e path value))
    fun group => c.each (e.returnValue.cascade path group value) c.visit
  return (← get).violations

/-- Validates something of an executable, if the type has it. -/
def withExecutable (type : TypeName) (object : Option ObjectId)
    (find : Metadata → Option ExecutableMetadata)
    (validate : Subject → ExecutableMetadata → Run (List Violation)) : Run (List Violation) := do
  let metadata ← c.metadataOf type
  match find metadata with
  | none => return []
  | some e => validate { object, metadata, path := .root } e

end Call

namespace Validator

variable (v : Validator)

/-- Validates an object. -/
def validate (object : ObjectId) (groups : List TypeName) : Report (List Violation) :=
  let c := v.call (some object) (v.store.typeOf object)
  v.run c (c.validate object groups)

/-- Validates the property that a path leads to from an object. -/
def validateProperty (object : ObjectId) (path : String) (groups : List TypeName) :
    Report (List Violation) :=
  let c := v.call (some object) (v.store.typeOf object)
  v.run c (c.validateProperty object path groups)

/-- Validates a value as that of a property. -/
def validateValue (type : TypeName) (property : String) (value : Value)
    (groups : List TypeName) : Report (List Violation) :=
  let c := v.call none type
  v.run c (c.validateValue type property value groups)

/-- Validates the arguments of a call of a method. -/
def validateParameters (object : ObjectId) (s : Signature) (values : List Value)
    (groups : List TypeName) : Report (List Violation) :=
  let type := v.store.typeOf object
  let c := { v.call (some object) type with arguments := some values }
  v.run c <| c.withExecutable type (some object) (·.method? s) fun subject e =>
    c.validateArguments subject e values groups

/-- Validates the value that a method returned. -/
def validateReturnValue (object : ObjectId) (s : Signature) (value : Value)
    (groups : List TypeName) : Report (List Violation) :=
  let type := v.store.typeOf object
  let c := { v.call (some object) type with returned := some value }
  v.run c <| c.withExecutable type (some object) (·.method? s) fun subject e =>
    c.validateReturned subject e value groups

/-- Validates the arguments of a call of a constructor. -/
def validateConstructorParameters (type : TypeName) (s : Signature) (values : List Value)
    (groups : List TypeName) : Report (List Violation) :=
  let c := { v.call none type with arguments := some values }
  v.run c <| c.withExecutable type none (·.constructor? s) fun subject e =>
    c.validateArguments subject e values groups

/-- Validates the object that a constructor made. -/
def validateConstructorReturnValue (type : TypeName) (s : Signature) (created : ObjectId)
    (groups : List TypeName) : Report (List Violation) :=
  let c := { v.call (some created) type with returned := some (.object created) }
  v.run c <| c.withExecutable type (some created) (·.constructor? s) fun subject e =>
    c.validateReturned subject e (.object created) groups

/-! ### Metadata -/

/-- The metadata of a type. -/
def metadata (type : TypeName) : Report Metadata :=
  let c := v.call none type
  v.run c (c.metadataOf type)

/-- What the default group of an object, or of a type without one, stands for. The groups and the
order are worked out apart from each other, so a provider is asked for each. -/
def defaultGroupSequence (type : TypeName) (object : Option ObjectId) :
    Report (List TypeName × Order) :=
  let c := v.call none type
  v.run c do
    let m ← c.metadataOf type
    let groups ← c.defaultGroups object m
    let forOrder ← c.defaultGroups object m
    return (groups, ← Run.ofExcept (m.defaultOrder v.registry forOrder))

end Validator

end ObjectValidation
