import ObjectValidation.Validation.Check
/-!
# Running orders of groups

An order runs the constraints of all its groups, then their cascades, and then its sequences. In a
sequence the constraints and cascades of a position run together, and a position that adds a
violation is the last one that runs.

The default group runs along the hierarchy of the object: each type contributes the constraints that
it and its direct interfaces declare, or, if it redefines its default group, all constraints of its
hierarchy in the order it asks for. Then the types above it are covered and do not run.
-/

namespace ObjectValidation.Call

variable (c : Call)

/-- The number of violations found. -/
def violationCount : Run Nat := return (← get).violations.length

/-- Runs the groups of one position of a sequence. -/
def runPosition (constraints cascades : TypeName → Run Unit) (position : List Group) : Run Unit :=
  c.each position fun g => do
    constraints g.name
    unless ← c.isStopped do cascades g.name

/-- Runs the positions of a sequence up to the first one that adds a violation. -/
def runPositions (constraints cascades : TypeName → Run Unit) : List (List Group) → Run Unit
  | [] => return
  | position :: rest => do
    let before ← violationCount
    c.runPosition constraints cascades position
    if (← violationCount) = before then runPositions constraints cascades rest

/-- Runs an order, given what to do for the constraints and for the cascades of a group. -/
def runOrder (o : Order) (constraints cascades : TypeName → Run Unit) : Run Unit := do
  c.each o.groups fun g => constraints g.name
  c.each o.groups fun g => cascades g.name
  c.each o.sequences fun q => c.runPositions constraints cascades q.positions

/-! ### The default group of an object -/

/-- The constraints that do not come from interfaces that a type further down has covered. -/
def uncovered (covered : List TypeName) (bs : List BoundConstraint) : List BoundConstraint :=
  bs.filter fun b => !(b.onInterface && covered.contains b.declaredBy)

/-- The interfaces that constraints come from. -/
def interfacesOf (bs : List BoundConstraint) : List TypeName :=
  (bs.filter (·.onInterface)).map (·.declaredBy)

/-- Checks constraints for one group of a redefined default group. The answer is whether all hold,
and false if the call has found all it looks for. -/
def checkGroup (s : Subject) (bs : List BoundConstraint) (group : TypeName) : Run Bool := do
  if ← c.isStopped then return false
  let holds ← c.checkAll s bs group
  if ← c.isStopped then return false
  c.markProcessed s group
  return holds

/-- Checks constraints for the groups of one position of a redefined default group. The answer is
whether all hold for all groups. -/
def checkPosition (s : Subject) (bs : List BoundConstraint) : List Group → Run Bool
  | [] => return true
  | g :: rest => do
    let holds ← c.checkGroup s bs g.name
    let others ← checkPosition s bs rest
    return holds && others

/-- Checks constraints position by position, up to the first one where some do not hold. -/
def checkPositions (s : Subject) (bs : List BoundConstraint) : List (List Group) → Run Unit
  | [] => return
  | position :: rest => do
    if ← c.checkPosition s bs position then checkPositions s bs rest

/-- Checks constraints of an object as its redefined default group asks for. -/
def runRedefined (s : Subject) (m : Metadata) (bs : List BoundConstraint) : Run Unit := do
  let d ← c.defaultMeaning s.object m
  c.each d.order.sequences fun q => c.checkPositions s bs q.positions
  unless ← c.isStopped do c.markProcessed s TypeName.defaultGroup

/-- Runs the default group for the types of a hierarchy in turn, where `covered` are the interfaces
whose constraints have had their turn. -/
def runHierarchy (s : Subject) (covered : List TypeName) : List TypeName → Run Unit
  | [] => return
  | type :: above => do
    let m ← c.metadataOf type
    if m.redefinesDefault then
      c.runRedefined s m (uncovered covered m.constraints)
    else
      let _ ← c.checkAll s (uncovered covered m.directConstraints) TypeName.defaultGroup
      unless ← c.isStopped do
        c.markProcessed s TypeName.defaultGroup
        runHierarchy s (covered ++ interfacesOf m.directConstraints) above

/-- Runs the constraints of an object for a group. -/
def runGroup (s : Subject) (group : TypeName) : Run Unit := do
  Run.record (.began s.object s.path group)
  if group.isDefault then c.runHierarchy s [] s.metadata.hierarchy
  else do
    let _ ← c.checkAll s s.metadata.constraints group
    unless ← c.isStopped do c.markProcessed s group

/-! ### The default group of an executable -/

/-- Runs a group of an executable; for the default group, the groups that it stands for. -/
def runExecutableGroup (object : Option ObjectId) (m : Metadata) (run : TypeName → Run Unit)
    (group : TypeName) : Run Unit :=
  if group.isDefault then do
    let d ← c.defaultMeaning object m
    c.runOrder d.order run fun _ => return
  else run group

end ObjectValidation.Call
