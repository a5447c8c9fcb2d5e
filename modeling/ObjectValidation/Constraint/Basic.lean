import ObjectValidation.Constraint.Attribute
import ObjectValidation.Text.Entries
import ObjectValidation.Type.Name
/-!
# Constraints

A constraint declaration: its kind chooses the evaluator, its attributes parametrise it, its groups
say when it is checked. A constraint may be composed of others, which apply to the same value.

Two declarations are equal if they demand and report the same; where they stand does not matter.
-/

namespace ObjectValidation

/-- What a constraint is declared on. -/
inductive Site
  | field (name : String)
  | getter (name : String)
  | parameter (index : Nat)
  | returnValue
  | constructorParameter (index : Nat)
  | constructorReturnValue
  | crossParameter
  | type
  deriving DecidableEq, Repr

/-- The site as messages show it. -/
def Site.label : Site → String
  | .field name => "field " ++ name
  | .getter name => "getter " ++ name
  | .parameter index => "parameter " ++ toString index
  | .returnValue => "return value"
  | .constructorParameter index => "constructor parameter " ++ toString index
  | .constructorReturnValue => "constructor return value"
  | .crossParameter => "cross-parameter"
  | .type => "type"

/-- A constraint declaration. The attributes are sorted by name and the groups differ. Site and
declaring type are known once the constraint is part of a type. -/
structure Constraint where
  kind : String
  groups : List TypeName := [TypeName.defaultGroup]
  payload : List String := []
  attributes : List (String × Attribute) := []
  composing : List Constraint := []
  reportAsSingle : Bool := false
  template : Option String := none
  site : Option Site := none
  declaredBy : Option TypeName := none
  deriving Inhabited

/-- The list without repetitions, each element at its first place. -/
def firstOccurrences {α : Type} [DecidableEq α] (xs : List α) : List α :=
  xs.foldl (fun seen x => if x ∈ seen then seen else seen ++ [x]) []

namespace Constraint

/-- The groups that a declaration with a list of groups belongs to: the default group if the list is
empty. -/
def groupsOf (groups : List TypeName) : List TypeName :=
  match firstOccurrences groups with
  | [] => [TypeName.defaultGroup]
  | gs => gs

/-- The attribute of a name. -/
def attribute? (c : Constraint) (name : String) : Option Attribute := Entries.get? name c.attributes

/-- Whether the constraint belongs to the default group. -/
def inDefaultGroup (c : Constraint) : Bool := c.groups.any (·.isDefault)

/-- Whether two lists of attributes have the same names with equal values. -/
def sameAttributes : List (String × Attribute) → List (String × Attribute) → Bool
  | [], [] => true
  | (k, a) :: as, (l, b) :: bs => k == l && a.same b && sameAttributes as bs
  | _, _ => false

/-- Whether two lists of groups, each without repetition, have the same members. -/
def sameGroups (gs hs : List TypeName) : Bool :=
  gs.length == hs.length && gs.all (hs.contains ·)

mutual

/-- Whether two declarations demand and report the same. -/
def same : Constraint → Constraint → Bool
  | ⟨kind, groups, payload, attributes, composing, single, template, _, _⟩,
    ⟨kind', groups', payload', attributes', composing', single', template', _, _⟩ =>
    kind == kind' && single == single' && template == template' &&
      sameAttributes attributes attributes' && payload == payload' &&
      sameGroups groups groups' && sameAll composing composing'

/-- Whether two lists of declarations are equal member by member. -/
def sameAll : List Constraint → List Constraint → Bool
  | [], [] => true
  | c :: cs, d :: ds => c.same d && sameAll cs ds
  | _, _ => false

end

/-- Whether a list has a declaration equal to this one. -/
def isAmong (c : Constraint) (cs : List Constraint) : Bool := cs.any (·.same c)

mutual

/-- The declaration, with its composing parts, as part of a type. -/
def located (owner : TypeName) (site : Site) : Constraint → Constraint
  | ⟨kind, groups, payload, attributes, composing, single, template, _, _⟩ =>
    ⟨kind, groups, payload, attributes, locatedAll owner site composing, single, template,
      some site, some owner⟩

/-- All declarations of a list as part of a type. -/
def locatedAll (owner : TypeName) (site : Site) : List Constraint → List Constraint
  | [] => []
  | c :: cs => c.located owner site :: locatedAll owner site cs

end

/-- The text of a declaration: its kind and its attributes. -/
def text (c : Constraint) : String :=
  let attributes := c.attributes.map fun (name, a) => name ++ "=" ++ a.text
  "@" ++ c.kind ++ if attributes.isEmpty then "" else "(" ++ ", ".intercalate attributes ++ ")"

end Constraint

end ObjectValidation
