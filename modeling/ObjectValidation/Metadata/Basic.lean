import ObjectValidation.Group.Order
import ObjectValidation.Type.Definition
/-!
# Metadata of types

All that the types of a hierarchy demand of an instance of one type, put together: its constraints,
each bound to where it applies, its properties and its executables.
-/

namespace ObjectValidation

/-- Which value of an instance a constraint applies to. -/
inductive Location
  | self
  | property (name : String)
  | parameter (index : Nat)
  | crossParameter
  | returnValue
  deriving DecidableEq, Repr

/-- The location as messages show it. -/
def Location.label : Location → String
  | .self => "bean"
  | .property name => "property " ++ name
  | .parameter index => "parameter " ++ toString index
  | .crossParameter => "cross-parameter"
  | .returnValue => "return value"

/-- A constraint as one type of a hierarchy declares it. -/
structure Occurrence where
  constraint : Constraint
  location : Location
  /-- The kind of contained value that the constraint applies to, if it is not the value itself. -/
  container : Option ContainerKind
  declaredBy : TypeName
  onInterface : Bool

/-- Whether the constraint comes from the type itself or from one above it. -/
inductive Origin
  | definedLocally | definedInHierarchy
  deriving DecidableEq, Repr

/-- A constraint that applies to the instances of a type. The number tells it from all others in the
metadata of that type. -/
structure BoundConstraint extends Occurrence where
  id : Nat
  type : TypeName

namespace BoundConstraint

/-- What tells the constraint from all others: the type whose metadata has it, and its number. -/
def key (b : BoundConstraint) : TypeName × Nat := (b.type, b.id)

/-- Where the constraint comes from. -/
def origin (b : BoundConstraint) : Origin :=
  if b.declaredBy = b.type then .definedLocally else .definedInHierarchy

/-- The groups that the constraint belongs to. A constraint of the default group belongs to the type
that declares it as well, since a redefined default sequence names types. -/
def groups (b : BoundConstraint) : List TypeName :=
  if b.constraint.inDefaultGroup && !b.constraint.groups.contains b.declaredBy then
    b.constraint.groups ++ [b.declaredBy]
  else b.constraint.groups

/-- Whether the constraint is checked for the group. -/
def appliesTo (b : BoundConstraint) (group : TypeName) : Bool := b.groups.contains group

end BoundConstraint

/-- A property of a type. -/
structure PropertyMetadata where
  name : String
  element : Element
  constraints : List BoundConstraint

/-- A parameter of an executable. -/
structure ParameterMetadata where
  index : Nat
  name : String
  type : TypeName
  element : Element
  constraints : List BoundConstraint

/-- A method or constructor of a type, as all the types that declare it demand. -/
structure ExecutableMetadata where
  signature : Signature
  kind : ExecutableKind
  returnType : Option TypeName
  parameters : List ParameterMetadata
  returnValue : Element
  returnConstraints : List BoundConstraint
  crossParameter : List BoundConstraint
  declaredBy : List TypeName

namespace ExecutableMetadata

/-- The parameter at an index. -/
def parameter (e : ExecutableMetadata) (index : Nat) : Except Error ParameterMetadata :=
  match e.parameters[index]? with
  | some p => .ok p
  | none => .error (.unknownParameter e.signature index e.parameters.length)

/-- Whether anything is demanded of the arguments. -/
def hasParameterConstraints (e : ExecutableMetadata) : Bool :=
  !e.crossParameter.isEmpty || e.parameters.any (·.element.isConstrained)

/-- Whether anything is demanded of the returned value. -/
def hasReturnConstraints (e : ExecutableMetadata) : Bool := e.returnValue.isConstrained

/-- Whether anything is demanded at all. -/
def isConstrained (e : ExecutableMetadata) : Bool :=
  e.hasParameterConstraints || e.hasReturnConstraints

end ExecutableMetadata

/-- What the default group means for the instances of a type. -/
inductive DefaultSequence
  /-- The default constraints of each type of the hierarchy in turn. -/
  | ordinary
  /-- A sequence that the type lists. -/
  | listed (groups : List TypeName) (order : Order)
  /-- A sequence that a provider chooses for each instance. -/
  | provided (provider : SequenceProvider)

/-- What the hierarchy of a type demands of its instances. -/
structure Metadata where
  type : TypeName
  isInterface : Bool
  hierarchy : List TypeName
  /-- The properties, sorted by name. -/
  properties : List PropertyMetadata
  /-- The properties that validation cascades into, in the order of their first declaration. -/
  cascaded : List String
  classConstraints : List BoundConstraint
  /-- The type and the interfaces that it implements other than through its superclass. -/
  directTypes : List TypeName
  /-- The methods, sorted by signature. -/
  methods : List ExecutableMetadata
  /-- The constructors, sorted by signature. -/
  constructors : List ExecutableMetadata
  default : DefaultSequence

namespace Metadata

/-- All constraints on instances and their properties. -/
def constraints (m : Metadata) : List BoundConstraint :=
  m.classConstraints ++ m.properties.flatMap (·.constraints)

/-- The constraints that the type and its direct interfaces declare. -/
def directConstraints (m : Metadata) : List BoundConstraint :=
  m.constraints.filter fun b => m.directTypes.contains b.declaredBy

/-- The property of a name. -/
def property? (m : Metadata) (name : String) : Option PropertyMetadata :=
  m.properties.find? (·.name == name)

/-- Whether there is a property of the name. -/
def hasProperty (m : Metadata) (name : String) : Bool := (m.property? name).isSome

/-- The method of a signature. -/
def method? (m : Metadata) (s : Signature) : Option ExecutableMetadata :=
  m.methods.find? (·.signature = s)

/-- The constructor of a signature. -/
def constructor? (m : Metadata) (s : Signature) : Option ExecutableMetadata :=
  m.constructors.find? (·.signature = s)

/-- Whether anything is demanded at all. -/
def isConstrained (m : Metadata) : Bool :=
  !m.constraints.isEmpty || !m.cascaded.isEmpty || m.methods.any (·.isConstrained) ||
    m.constructors.any (·.isConstrained)

/-- Whether the default group is redefined. -/
def redefinesDefault (m : Metadata) : Bool :=
  match m.default with
  | .ordinary => false
  | _ => true

/-- Whether a provider chooses what the default group means. -/
def hasProvider (m : Metadata) : Bool :=
  match m.default with
  | .provided _ => true
  | _ => false

end Metadata

end ObjectValidation
