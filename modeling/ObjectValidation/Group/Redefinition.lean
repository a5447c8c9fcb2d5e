import ObjectValidation.Group.Order
/-!
# Redefined default groups

A class may say which groups, in which order, the default group means for its instances. The class
itself stands in that list for its own default constraints.
-/

namespace ObjectValidation

/-- The list with the default group in place of the type, if the list is one that may redefine the
default group of the type: it lists the type, and it does not list the default group. -/
def redefinition (type : TypeName) (groups : Option (List TypeName)) :
    Except Error (List TypeName) :=
  match groups with
  | none => .error (.typeMissingFromSequence type)
  | some [] => .error (.emptySequence type)
  | some gs =>
    if gs.any (·.isDefault) then .error (.defaultInSequence type)
    else if type ∈ gs then .ok (gs.map fun g => if g = type then TypeName.defaultGroup else g)
    else .error (.typeMissingFromSequence type)

namespace Order

/-- Whether a member of a redefined default sequence may stand at its place in a sequence: the first
one right before the default group or the last one right behind it. -/
def fits (member last place defaultPlace : Nat) : Bool :=
  (member == 0 && place + 1 == defaultPlace) || (member == last && place == defaultPlace + 1)

/-- Whether a redefined default sequence can take the place of the default group in a list of groups
without a group running twice at places apart. -/
def allowsDefault (redefined groups : List TypeName) : Bool :=
  match groups.findIdx? (·.isDefault) with
  | none => true
  | some defaultPlace =>
    (List.range redefined.length).all fun i =>
      match redefined[i]? with
      | none => true
      | some member =>
        member.isDefault ||
          match groups.findIdx? (· = member) with
          | none => true
          | some place => fits i (redefined.length - 1) place defaultPlace

/-- Fails if the redefined default sequence cannot take the place of the default group in one of the
sequences. -/
def checkDefault (o : Order) (redefined : List TypeName) : Except Error Unit :=
  o.sequences.forM fun s =>
    if allowsDefault redefined s.groups then .ok ()
    else .error (.unexpandableDefault redefined s.groups)

end Order

end ObjectValidation
