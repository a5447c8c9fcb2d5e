import ObjectValidation.Element.Basic
import ObjectValidation.Object.Store
import ObjectValidation.Text.Case
/-!
# Types

What the registry knows of a type: where it stands in the hierarchy, the members it declares and
what is demanded of them. Groups are interfaces; an interface with a list of groups is a group
sequence, a class with one redefines what the default group means for its instances.
-/

namespace ObjectValidation

/-- The kinds of types: a class, which has instances, or an interface. -/
inductive TypeKind
  | concrete | interface
  deriving DecidableEq, Repr

/-- The kinds of executables. -/
inductive ExecutableKind
  | constructor | getter | method
  deriving DecidableEq, Repr

/-- A declared field. -/
structure Field where
  name : String
  element : Element

/-- A declared parameter. -/
structure Parameter where
  name : String
  type : TypeName
  element : Element

/-- A method or constructor as one type declares it. -/
structure Executable where
  kind : ExecutableKind
  name : String
  declaredBy : TypeName
  parameters : List Parameter
  returnType : Option TypeName
  returnValue : Element
  crossParameter : List Constraint
  isPrivate : Bool
  isStatic : Bool

/-- What chooses the default group sequence of an object when it is validated. -/
structure SequenceProvider where
  /-- The type whose instances the provider is made for; any type if there is none. -/
  bound : Option TypeName
  /-- The groups for an instance of a type, or for the type where there is no instance. -/
  groups : Store → TypeName → Option ObjectId → Option (List TypeName)

/-- A type. -/
structure TypeDefinition where
  name : TypeName
  kind : TypeKind
  superclass : Option TypeName := none
  interfaces : List TypeName := []
  fields : List Field := []
  methods : List Executable := []
  constructors : List Executable := []
  constraints : List Constraint := []
  sequence : Option (List TypeName) := none
  provider : Option SequenceProvider := none

namespace TypeDefinition

/-- Whether the type is an interface. -/
def isInterface (d : TypeDefinition) : Bool := d.kind = .interface

/-- The groups of a group sequence, if the type is one. -/
def sequenceMembers? (d : TypeDefinition) : Option (List TypeName) :=
  if d.isInterface then d.sequence else none

/-- Whether the type is a group sequence. -/
def isGroupSequence (d : TypeDefinition) : Bool := d.sequenceMembers?.isSome

/-- The types above the type: its superclass, then its interfaces in order. -/
def supertypes (d : TypeDefinition) : List TypeName := d.superclass.toList ++ d.interfaces

end TypeDefinition

namespace Executable

/-- What tells the executable from the others of its type. -/
def signature (e : Executable) : Signature := .of e.name (e.parameters.map (·.type))

/-- Whether the executable returns nothing. -/
def isVoid (e : Executable) : Bool := e.kind != .constructor && e.returnType.isNone

/-- Whether anything is demanded of the parameters. -/
def hasParameterConstraints (e : Executable) : Bool :=
  !e.crossParameter.isEmpty || e.parameters.any (·.element.isConstrained)

/-- Whether the second executable demands of its parameters all that the first one does. -/
def parameterSubset (e d : Executable) : Bool :=
  e.parameters.length == d.parameters.length &&
    e.crossParameter.all (·.isAmong d.crossParameter) &&
    (e.parameters.zip d.parameters).all fun (p, q) => p.element.subset q.element

end Executable

namespace Property

/-- Whether a return type is a truth value. -/
def isTruthType (t : Option TypeName) : Bool := t = some ⟨"bool"⟩ || t = some ⟨"boolean"⟩

/-- The rest of a text after a beginning. -/
def after? (start cs : List Char) : Option (List Char) :=
  if start.isPrefixOf cs then some (cs.drop start.length) else none

/-- What follows `is` in the name of a getter of a truth value. -/
def truthStem? (name : String) (returnType : Option TypeName) : Option (List Char) :=
  (after? "is".toList name.toList).filter fun stem => !stem.isEmpty && isTruthType returnType

/-- Whether a method reads a property: it takes nothing, is bound to an object, returns something
and is named for the property. -/
def isGetter (name : String) (parameters : Nat) (returnType : Option TypeName) (isStatic : Bool) :
    Bool :=
  parameters == 0 && !isStatic && returnType.isSome &&
    ((truthStem? name returnType).isSome ||
      (after? "get".toList name.toList).any fun stem => !stem.isEmpty)

/-- The name of a property from that of its getter without the leading word. It begins with a small
letter, unless it begins with two capitals. -/
def ofStem : List Char → Option String
  | [] => none
  | first :: rest =>
    if Text.isUpper first && rest.head?.any Text.isUpper then some (String.ofList (first :: rest))
    else some (String.ofList (Text.lower first ++ rest))

/-- The name of the getter of a property. -/
def getterName (property : String) : String :=
  match property.toList with
  | [] => "get"
  | first :: rest => "get" ++ String.ofList (Text.upper first ++ rest)

end Property

/-- The property that the executable reads, if it is a getter. -/
def Executable.property? (e : Executable) : Option String :=
  if e.kind = .getter then
    match Property.truthStem? e.name e.returnType with
    | some stem => Property.ofStem stem
    | none => (Property.after? "get".toList e.name.toList).bind Property.ofStem
  else none

end ObjectValidation
