import ObjectValidation.Constraint.Composition
import ObjectValidation.Validation.Call
/-!
# Checking constraints

A constraint is checked on a subject: an object, or a type without one, at a path. A constraint of
several groups is checked once at a path, for whichever of its groups comes first.
-/

namespace ObjectValidation

/-- What a validation looks at. -/
structure Subject where
  object : Option ObjectId
  metadata : Metadata
  path : Path
  /-- The one property that counts, if not everything does, and the value to take for it, if that is
  not the value that the object has. -/
  only : Option (String × Option Value) := none

namespace Subject

/-- The subject as a value. -/
def value (s : Subject) : Value := (s.object.map Value.object).getD .null

/-- The value of a property of the subject. -/
def property (s : Subject) (store : Store) (name : String) : Value :=
  match s.only with
  | some (fixed, some v) => if fixed = name then v else read
  | _ => read
where
  /-- The value that the object has. -/
  read := (s.object.map fun id => store.property id name).getD .null

/-- Whether constraints at a location count. -/
def includes (s : Subject) (l : Location) : Bool := s.only.all fun (name, _) => l = .property name

end Subject

/-- The values of one kind that a value contains, with their positions. An empty optional contains
null. -/
def ContainerKind.contents : ContainerKind → Value → List (Option Position × Value)
  | .listElement, .list items => items.mapIdx fun i item => (some (.index i), item)
  | .mapKey, .map entries => entries.map fun (k, _) => (some (.key k), .str k)
  | .mapValue, .map entries => entries.map fun (k, v) => (some (.key k), v)
  | .optionalValue, .optional inner => [(none, inner.getD .null)]
  | _, _ => []

namespace Call

variable (c : Call)

/-- The verdict of the evaluator of a declaration. Only a composed constraint can do without one. -/
def judge (site : EvaluationSite) (value : Value) (k : Constraint) : Run (Option Bool) :=
  match c.evaluators.find? k.kind value with
  | some e => do
    Run.record (.consulted k.kind site value.effective e.isStandard)
    match e.check c.store k value.effective site with
    | .ok valid => return some valid
    | .error reason =>
      Run.fail (.evaluationFailed k.kind site.path.text (c.store.text value) reason)
  | none =>
    if k.composing.isEmpty then Run.fail (.noEvaluator k.kind value.effective.kind)
    else return none

/-- The violation of a constraint by a value. -/
def violation (site : EvaluationSite) (value : Value) (k : Constraint) : Violation where
  message := k.interpolate c.store value k.messageTemplate
  template := k.messageTemplate
  path := site.path
  constraint := k
  value
  root := c.root
  rootType := c.rootType
  leaf := site.leaf
  arguments := c.arguments
  returned := c.returned

/-- Reports a violation, unless one of the same key has been reported. -/
def report (v : Violation) : Run Unit :=
  modify fun p =>
    if p.violations.any (·.isRepeatOf v) then p else { p with violations := p.violations ++ [v] }

/-- Evaluates a declaration with its parts and reports what fails. The answer is whether nothing
does. -/
def evaluate (s : Subject) (k : Constraint) (value : Value) (path : Path) : Run Bool := do
  let site : EvaluationSite := { rootType := c.rootType, path, leaf := s.object }
  let failing ← k.failing (c.judge site value)
  failing.forM fun f => report (c.violation site value f)
  return failing.isEmpty

/-- Evaluates a constraint on a value, or on each value of the kind that it applies to. The answer is
whether it holds. -/
def evaluateBound (s : Subject) (value : Value) (path : Path) (b : BoundConstraint) : Run Bool :=
  match b.container with
  | none => c.evaluate s b.constraint value path
  | some kind =>
    c.allHold (kind.contents value) fun (position, item) =>
      c.evaluate s b.constraint item ((path.element position).property kind.label)

/-- Checks a constraint on a value for a group, if it belongs to the group and has not been checked
at the path before. -/
def checkConstraint (s : Subject) (group : TypeName) (value : Value) (path : Path)
    (b : BoundConstraint) : Run Bool := do
  if !b.appliesTo group then return true
  let mark := (s.object, path, b.key)
  let tracked := 1 < b.groups.length
  if tracked && (← get).processedConstraints.contains mark then return true
  Run.record (.checked s.object path b group value)
  let holds ← c.evaluateBound s value path b
  if tracked then
    modify fun p => { p with processedConstraints := mark :: p.processedConstraints }
  return holds

/-- Checks a constraint of the metadata of an object on the value that it applies to. -/
def checkBound (s : Subject) (group : TypeName) (b : BoundConstraint) : Run Bool :=
  if s.includes b.location then
    match b.location with
    | .self => c.checkConstraint s group s.value s.path b
    | .property name => c.checkConstraint s group (s.property c.store name) (s.path.property name) b
    | _ => return true
  else return true

/-- Checks constraints of an object for a group. The answer is whether all of them hold. -/
def checkAll (s : Subject) (bs : List BoundConstraint) (group : TypeName) : Run Bool :=
  c.allHold bs (c.checkBound s group)

/-- Notes that the subject has been validated for a group at its path. -/
def markProcessed (s : Subject) (group : TypeName) : Run Unit :=
  if c.config.trackProcessed then
    modify fun p => { p with
      processedGroups :=
        if p.processedGroups.contains (s.object, group) then p.processedGroups
        else (s.object, group) :: p.processedGroups
      processedPaths :=
        if p.processedPaths.contains (s.object, s.path) then p.processedPaths
        else (s.object, s.path) :: p.processedPaths }
  else return

end Call

end ObjectValidation
