import ObjectValidation.Error
/-!
# Orders of groups

What a validation runs: some groups, each on its own, and some sequences of groups. A sequence runs
its positions one after another and stops at the first one that finds a violation. With a group go
the groups that it extends; these are there only by implication.
-/

namespace ObjectValidation

/-- A group of an order, and whether it is there only because another group extends it. -/
structure Group where
  name : TypeName
  implied : Bool
  deriving DecidableEq, Repr

/-- A group that is there in its own right. -/
def Group.plain (name : TypeName) : Group := ⟨name, false⟩

/-- A sequence: the groups it is made of and, for each of them, the groups of its position. -/
structure Sequence where
  name : TypeName
  groups : List TypeName
  positions : List (List Group)
  deriving DecidableEq, Repr

/-- The groups and sequences that a validation runs. -/
structure Order where
  groups : List Group := []
  sequences : List Sequence := []
  deriving DecidableEq, Repr

namespace Order

/-- The order of the default group alone. -/
def default : Order := { groups := [Group.plain TypeName.defaultGroup] }

/-- The groups with one added, unless one of the same name is among them. -/
def insertGroup (groups : List Group) (g : Group) : List Group :=
  if groups.any (·.name = g.name) then groups else groups ++ [g]

/-- The order with groups added in turn. -/
def addGroups (o : Order) (gs : List Group) : Order :=
  { o with groups := gs.foldl insertGroup o.groups }

/-- The order with a sequence added, unless one of the same name is part of it. -/
def addSequence (o : Order) (s : Sequence) : Order :=
  if o.sequences.any (·.name = s.name) then o else { o with sequences := o.sequences ++ [s] }

/-- Whether the order runs nothing. -/
def isEmpty (o : Order) : Bool := o.groups.isEmpty && o.sequences.isEmpty

end Order

end ObjectValidation
