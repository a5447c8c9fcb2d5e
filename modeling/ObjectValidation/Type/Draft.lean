import ObjectValidation.Error
import ObjectValidation.Type.Definition
/-!
# Drafts of types

A draft is what a caller writes down; defining it checks that it is consistent, works out what each
executable is and binds every constraint to the type and the place it is declared on.
-/

namespace ObjectValidation

/-- A method or constructor as a caller writes it down. -/
structure ExecutableDraft where
  isConstructor : Bool := false
  name : String := ""
  parameters : List Parameter := []
  returnType : Option TypeName := none
  returnValue : Element := {}
  crossParameter : List Constraint := []
  isPrivate : Bool := false
  isStatic : Bool := false

namespace ExecutableDraft

/-- The method that reads a property. -/
def getter (property : String) (type : TypeName) (element : Element) : ExecutableDraft where
  name := Property.getterName property
  returnType := some type
  returnValue := element

/-- What the executable is. -/
def kind (d : ExecutableDraft) : ExecutableKind :=
  if d.isConstructor then .constructor
  else if Property.isGetter d.name d.parameters.length d.returnType d.isStatic then .getter
  else .method

/-- The site of a parameter. -/
def parameterSite (d : ExecutableDraft) (index : Nat) : Site :=
  if d.isConstructor then .constructorParameter index else .parameter index

/-- The site of the returned value. -/
def returnSite (d : ExecutableDraft) : Site :=
  match d.kind with
  | .constructor => .constructorReturnValue
  | .getter => .getter d.name
  | .method => .returnValue

/-- The executable as a member of a type. A constructor goes by the simple name of its type and
returns an instance of it; a parameter without a name goes by its index. -/
def define (owner : TypeName) (d : ExecutableDraft) : Except DefinitionFault Executable := do
  if d.isConstructor && d.isStatic then throw (.staticConstructor owner)
  if !d.isConstructor && d.name.isEmpty then throw (.unnamedMethod owner)
  return {
    kind := d.kind
    name := if d.isConstructor then owner.simple else d.name
    declaredBy := owner
    parameters := d.parameters.mapIdx fun index p =>
      { name := if p.name.isEmpty then s!"arg{index}" else p.name
        type := p.type
        element := p.element.located owner (d.parameterSite index) }
    returnType := if d.isConstructor then some owner else d.returnType
    returnValue := d.returnValue.located owner d.returnSite
    crossParameter := Constraint.locatedAll owner .crossParameter d.crossParameter
    isPrivate := d.isPrivate
    isStatic := d.isStatic }

end ExecutableDraft

/-- A type as a caller writes it down. -/
structure TypeDraft where
  name : TypeName
  kind : TypeKind
  superclass : Option TypeName := none
  interfaces : List TypeName := []
  fields : List Field := []
  methods : List ExecutableDraft := []
  constructors : List ExecutableDraft := []
  constraints : List Constraint := []
  sequence : Option (List TypeName) := none
  provider : Option SequenceProvider := none

namespace TypeDraft

/-- An interface has neither a superclass nor constructors nor fields. -/
def checkInterface (d : TypeDraft) : Except DefinitionFault Unit := do
  if d.kind = .interface then
    if let some superclass := d.superclass then throw (.interfaceExtends d.name superclass)
    if !d.constructors.isEmpty then throw (.interfaceConstructs d.name)
    if !d.fields.isEmpty then throw (.interfaceHasFields d.name)

/-- The fields as members of the type, each name once. -/
def defineFields (owner : TypeName) (fields : List Field) : Except DefinitionFault (List Field) :=
  fields.foldlM (fun (defined : List Field) f =>
    if defined.any (·.name == f.name) then .error (.repeatedField f.name owner)
    else .ok (defined ++ [{ f with element := f.element.located owner (.field f.name) }])) []

/-- The type that a draft describes. -/
def define (d : TypeDraft) : Except Error TypeDefinition :=
  Except.mapError .definition do
    d.checkInterface
    return {
      name := d.name
      kind := d.kind
      superclass := d.superclass
      interfaces := d.interfaces
      fields := ← defineFields d.name d.fields
      methods := ← d.methods.mapM (·.define d.name)
      constructors := ← d.constructors.mapM (·.define d.name)
      constraints := Constraint.locatedAll d.name .type d.constraints
      sequence := d.sequence
      provider := d.provider }

end TypeDraft

end ObjectValidation
