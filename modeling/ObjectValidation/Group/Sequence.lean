import ObjectValidation.Group.Order
import ObjectValidation.Type.Hierarchy
/-!
# Expanding sequences

The members of a sequence are groups or sequences again, whose groups take their place. A group may
come twice only where the second time directly follows the first.
-/

namespace ObjectValidation.Sequence

/-- The groups with one more at the end. One that is the last already is not repeated; one that came
earlier cannot be placed. -/
def place (sequence : TypeName) (groups : List TypeName) (group : TypeName) :
    Except Error (List TypeName) :=
  if group ∈ groups then
    if groups.getLast? = some group then .ok groups
    else .error (.unexpandableSequence sequence group)
  else .ok (groups ++ [group])

/-- The groups that the members of a sequence stand for. The path holds the sequences under way,
this one included; to meet one of them again is a cycle. -/
def expand (r : Registry) (path : List TypeName) (name : TypeName) (members : List TypeName) :
    Except Error (List TypeName) :=
  members.foldlM (fun groups member =>
    match _h : r.get? member with
    | none => throw (.typeNotFound member)
    | some d =>
      match d.sequenceMembers? with
      | none => place name groups member
      | some nested =>
        if _hs : member ∈ path then throw (.cyclicSequence member)
        else do (← expand r (path ++ [member]) member nested).foldlM (place name) groups) []
termination_by r.unmetWeight path
decreasing_by exact Registry.unmetWeight_lt _h _hs

/-- The groups that run at the position of a group: itself and the groups it extends. -/
def positionOf (r : Registry) (group : TypeName) : Except Error (List Group) :=
  if group.isDefault then .ok [Group.plain group]
  else return Group.plain group :: (← r.superInterfaces group).map (⟨·, true⟩)

/-- The sequence of a name and members. -/
def build (r : Registry) (name : TypeName) (members : List TypeName) : Except Error Sequence := do
  let groups ← expand r [name] name members
  return { name, groups, positions := ← groups.mapM (positionOf r) }

end ObjectValidation.Sequence
