import ObjectValidation.Validation.Walk
/-!
# Cascades

Validation cascades from a value into the objects that it is or contains. An object that has been
validated for the group on the same way is passed over; without that memory, only an object whose
validation is still under way is. On its way a cascade may go over to another group, for which the
whole order of that group runs.
-/

namespace ObjectValidation

/-- A step of a cascade: into an object at a path, from the group `source` to `group`. -/
structure CascadeStep where
  target : ObjectId
  path : Path
  source : TypeName
  group : TypeName
  deriving DecidableEq, Repr

/-- The objects in a list of contained values, one layer of optionals removed, with their paths. -/
def objectsIn (path : Path) (contents : List (Option Position × Value)) :
    List (ObjectId × Path) :=
  contents.filterMap fun (position, v) => v.unwrapped.object?.map (·, path.element position)

/-- The objects that a value is or contains. Optionals are opened however deep they are nested. -/
def Value.objects (path : Path) : Value → List (ObjectId × Path)
  | .object id => [(id, path)]
  | .list items => objectsIn path (ContainerKind.contents .listElement (.list items))
  | .map entries => objectsIn path (ContainerKind.contents .mapValue (.map entries))
  | .optional (some v) => v.objects path
  | _ => []

/-- The step into an object for a group that the facet may convert. -/
def Facet.step (f : Facet) (group : TypeName) (target : ObjectId × Path) : CascadeStep :=
  ⟨target.1, target.2, group, f.converted group⟩

/-- The steps of the cascade from a value for a group. -/
def Element.cascade (e : Element) (path : Path) (group : TypeName) (value : Value) :
    List CascadeStep :=
  (if e.own.cascading then (value.objects path).map (e.own.step group) else []) ++
    (e.containers.filter (·.2.cascading)).flatMap fun (kind, facet) =>
      (objectsIn path (kind.contents value)).map (facet.step group)

/-- The steps of the cascades from the properties of a subject for a group. -/
def Subject.cascade (s : Subject) (store : Store) (group : TypeName) : List CascadeStep :=
  s.metadata.cascaded.flatMap fun name =>
    match s.metadata.property? name with
    | none => []
    | some p => p.element.cascade (s.path.property name) group (s.property store name)

/-- Whether one of two paths lies on the way to the other. -/
def Path.isRelatedTo (p q : Path) : Bool :=
  p.isRoot || q.isRoot || p.isSubPathOf q || q.isSubPathOf p

namespace Call

variable (c : Call)

/-- Whether the target has been validated for the group, and validated on the same way. -/
def isProcessed (p : Progress) (step : CascadeStep) : Bool :=
  c.config.trackProcessed && p.processedGroups.contains (some step.target, step.group) &&
    p.processedPaths.any fun (object, path) =>
      object = some step.target && step.path.isRelatedTo path

/-- Whether the validation of an object would go in circles. -/
def isOnChain (p : Progress) (id : ObjectId) : Bool :=
  !c.config.trackProcessed && p.chain.contains id

/-- Runs a computation while the validation of an object is under way, and takes the object off the
chain at the end, also after a failure. -/
def whileOnChain (id : ObjectId) (x : Run Unit) : Run Unit := do
  modify fun p => { p with chain := id :: p.chain }
  try x
  catch halt =>
    modify fun p => { p with chain := p.chain.tail }
    throw halt
  modify fun p => { p with chain := p.chain.tail }

/-- If the default group of a subject is redefined, it has to fit into the sequences of the order. -/
def requireFit (s : Subject) (o : Order) : Run Unit :=
  if s.metadata.redefinesDefault then do
    Run.ofExcept (o.checkDefault (← c.defaultMeaning s.object s.metadata).groups)
  else return

/-- Takes the steps of the cascades from a subject for a group. A subject of which only one property
counts does not cascade. -/
def runCascades (visit : CascadeStep → Run Unit) (s : Subject) (group : TypeName) : Run Unit :=
  if s.only.isSome then return else c.each (s.cascade c.store group) visit

/-- Validates a subject, given how to take a step of a cascade. -/
def runSubject (visit : CascadeStep → Run Unit) (s : Subject) (o : Order) : Run Unit := do
  c.requireFit s o
  c.runOrder o (c.runGroup s) (c.runCascades visit s)

/-- Takes a step of a cascade, unless the target is done for the group or is under way already. The
number counts how many cascades within cascades may still be entered. -/
def cascade : Nat → CascadeStep → Run Unit
  | 0, _ => throw .exhausted
  | depth + 1, step => do
    if !(← c.isStopped) && !c.isProcessed (← get) step then
      let metadata ← c.metadataOf (c.store.typeOf step.target)
      let order ← Run.expanding (Order.ofGroup c.registry step.group (step.group ≠ step.source))
      if !c.isOnChain (← get) step.target then
        whileOnChain step.target <|
          c.runSubject (cascade depth)
            { object := some step.target, metadata, path := step.path } order

/-- Takes a step of a cascade as deep as the call may go. -/
def visit (step : CascadeStep) : Run Unit := c.cascade c.depth step

end Call

end ObjectValidation
