import ObjectValidation.Group.Sequence
/-!
# The order that a request asks for

A request lists groups and sequences. A group brings the groups it extends with it. Sequences are
expanded once and remembered, also by a request that fails later on.
-/

namespace ObjectValidation

/-- The expanded sequences that are remembered. -/
abbrev SequenceCache := List (TypeName × Sequence)

/-- A computation that uses the remembered sequences and keeps what it adds even if it fails. -/
abbrev Expanding := ExceptT Error (StateM SequenceCache)

namespace Order

/-- The sequence of a name, from memory if it is there. -/
def obtainSequence (r : Registry) (name : TypeName) (members : List TypeName) :
    Expanding Sequence := do
  match (← get).lookup name with
  | some s => return s
  | none =>
    let s ← (Sequence.build r name members : Except Error Sequence)
    modify (· ++ [(name, s)])
    return s

/-- A group can be requested if it is a registered interface. -/
def checkGroup (r : Registry) (group : TypeName) : Except Error Unit := do
  let d ← r.resolve group
  if !d.isInterface then throw (.notAGroup group)

/-- The order with what one requested group stands for added. -/
def request (r : Registry) (o : Order) (group : TypeName) : Expanding Order := do
  if group.isDefault then return o.addGroups [Group.plain group]
  match r.sequenceMembers? group with
  | some members => return o.addSequence (← obtainSequence r group members)
  | none =>
    let implied ← (r.superInterfaces group : Except Error (List TypeName))
    return o.addGroups (Group.plain group :: implied.map (⟨·, true⟩))

/-- The order that a request asks for. -/
def ofGroups (r : Registry) (groups : List TypeName) : Expanding Order := do
  if groups.isEmpty then throw .emptyGroups
  if groups.all (·.isDefault) then return default
  groups.forM fun g => (checkGroup r g : Except Error Unit)
  groups.foldlM (request r) {}

/-- The order for a group that a cascade goes on for: all that it stands for if it came about by
conversion, else the group alone. -/
def ofGroup (r : Registry) (group : TypeName) (expand : Bool) : Expanding Order :=
  if group.isDefault then return default
  else if expand then ofGroups r [group]
  else return { groups := [Group.plain group] }

/-- The order of a redefined default group sequence, which goes by the name of its type. -/
def ofDefaultSequence (r : Registry) (type : TypeName) (groups : List TypeName) :
    Except Error Order :=
  return ({} : Order).addSequence (← Sequence.build r type groups)

end Order

end ObjectValidation
