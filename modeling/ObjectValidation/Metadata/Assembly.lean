import ObjectValidation.Element.Merge
import ObjectValidation.Group.Redefinition
import ObjectValidation.Group.Request
import ObjectValidation.Metadata.Basic
import ObjectValidation.Metadata.Override
/-!
# Putting metadata together

The declarations of a hierarchy are listed, the type itself first; every constraint in that list
gets its place in it as its number. Declarations of the same property, or of methods with the same
signature, are merged.
-/

namespace ObjectValidation

/-- The constraints of an element, those on the value before those on contained values. -/
def Element.occurrences (e : Element) (location : Location) (owner : TypeName)
    (onInterface : Bool) : List Occurrence :=
  e.own.constraints.map (⟨·, location, none, owner, onInterface⟩) ++
    e.containers.flatMap fun (kind, facet) =>
      facet.constraints.map (⟨·, location, some kind, owner, onInterface⟩)

/-- Constraints that apply to a type, numbered from `next` on. -/
def bindAll (type : TypeName) (next : Nat) (os : List Occurrence) : List BoundConstraint :=
  os.mapIdx fun i o => { o with id := next + i, type }

namespace Assembly

/-- A declaration of a property. -/
structure PropertyDeclaration where
  name : String
  element : Element
  declaredBy : TypeName
  onInterface : Bool
  isField : Bool

/-- The members of a type that instances of `type` have: methods are bound to instances, and private
ones belong to their own type only. -/
def memberMethods (type : TypeName) (d : TypeDefinition) : List Executable :=
  d.methods.filter fun m => !m.isStatic && !(m.isPrivate && d.name != type)

/-- The properties that one type declares for instances of `type`, its fields before its getters. -/
def propertiesOf (type : TypeName) (d : TypeDefinition) : List PropertyDeclaration :=
  d.fields.map (fun f => ⟨f.name, f.element, d.name, d.isInterface, true⟩) ++
    (memberMethods type d).filterMap fun m =>
      m.property?.map fun name => ⟨name, m.returnValue, d.name, d.isInterface, false⟩

/-- The constraints that one type declares on instances of `type` and their properties. -/
def occurrencesOf (type : TypeName) (d : TypeDefinition) : List Occurrence :=
  d.constraints.map (⟨·, .self, none, d.name, d.isInterface⟩) ++
    (propertiesOf type d).flatMap fun p =>
      p.element.occurrences (.property p.name) p.declaredBy p.onInterface

/-- The properties merged so far, with one more declaration. The first one of a name stands in the
list where it was found. -/
def mergeProperty (r : Registry) (merged : List (String × Element)) (p : PropertyDeclaration) :
    Except Error (List (String × Element)) := do
  let name := p.declaredBy.label ++ "." ++ p.name
  if p.isField then p.element.checkConversions r name
  match merged.lookup p.name with
  | none => return merged ++ [(p.name, p.element)]
  | some e =>
    let e ← e.merge name p.element
    return merged.map fun entry => if entry.1 = p.name then (p.name, e) else entry

/-- The constraints without those that equal an earlier one on the same kind of value. -/
def withoutRepeats (bs : List BoundConstraint) : List BoundConstraint :=
  bs.foldl (fun kept b =>
    if kept.any fun k => k.container = b.container && k.constraint.same b.constraint then kept
    else kept ++ [b]) []

/-- The demands of several declarations on one value, each given with the name of its element. -/
def mergeElements (r : Registry) (es : List (String × Element)) : Except Error Element :=
  es.foldlM (fun (merged : Element) (name, e) => do
    e.checkConversions r name
    merged.merge name e) {}

/-- The constraints that declarations of an executable with `parameters` parameters put on its
parameters, one parameter after the other, then on its returned value and on all arguments together,
one declaration after the other. -/
def executableOccurrences (r : Registry) (parameters : Nat) (ds : List Executable) :
    List Occurrence :=
  ((List.range parameters).flatMap fun index =>
    ds.flatMap fun d =>
      match d.parameters[index]? with
      | none => []
      | some p =>
        p.element.occurrences (.parameter index) d.declaredBy (r.isInterface d.declaredBy)) ++
  ds.flatMap fun d =>
    d.returnValue.occurrences .returnValue d.declaredBy (r.isInterface d.declaredBy) ++
      d.crossParameter.map (⟨·, .crossParameter, none, d.declaredBy, r.isInterface d.declaredBy⟩)

/-- The declarations of one parameter with the names of their elements. -/
def parameterElements (s : Signature) (index : Nat) (ds : List Executable) :
    List (String × Element) :=
  ds.filterMap fun d =>
    (d.parameters[index]?).map fun p => (s!"{d.declaredBy}.{s}.{p.name}", p.element)

/-- The executable that merged declarations make, the first of which decides on names and types. Its
constraints are numbered from `next` on. -/
def mergeExecutable (r : Registry) (type : TypeName) (next : Nat) (first : Executable)
    (others : List Executable) : Except Error ExecutableMetadata := do
  let ds := first :: others
  let s := first.signature
  let bound := bindAll type next (executableOccurrences r first.parameters.length ds)
  let boundAt := fun location => withoutRepeats (bound.filter (·.location = location))
  let parameters ← first.parameters.zipIdx.mapM fun (p, index) => do
    let element ← mergeElements r (parameterElements s index ds)
    return { index, name := p.name, type := p.type, element,
             constraints := boundAt (.parameter index) : ParameterMetadata }
  let returnValue ← mergeElements r
    (ds.map fun d => (s!"{d.declaredBy}.{s}.<return value>", d.returnValue))
  return {
    signature := s
    kind := first.kind
    returnType := first.returnType
    parameters
    returnValue
    returnConstraints := boundAt .returnValue
    crossParameter := boundAt .crossParameter
    declaredBy := ds.map (·.declaredBy) }

/-- Executables with one more, in place of one of the same signature, in the order of signatures. -/
def insertExecutable (e : ExecutableMetadata) : List ExecutableMetadata → List ExecutableMetadata
  | [] => [e]
  | x :: xs =>
    match Signature.order e.signature x.signature with
    | .lt => e :: x :: xs
    | .eq => e :: xs
    | .gt => x :: insertExecutable e xs

/-- Executables put together one after the other, with the number that follows all numbers used. -/
structure Assembled where
  next : Nat
  executables : List ExecutableMetadata := []

/-- Adds the executable of some declarations, once the rules on methods are found to hold. -/
def addExecutable (r : Registry) (rules : List MethodRule) (type : TypeName) (a : Assembled)
    (ds : List Executable) : Except Error Assembled :=
  match ds with
  | [] => .ok a
  | first :: others => do
    MethodRule.checkAll r rules ds
    let e ← mergeExecutable r type a.next first others
    return {
      next := a.next + (executableOccurrences r first.parameters.length ds).length
      executables := insertExecutable e a.executables }

/-- Declarations grouped by signature, in the order in which the signatures are first met. -/
def groupBySignature (es : List Executable) : List (List Executable) :=
  (firstOccurrences (es.map (·.signature))).map fun s => es.filter (·.signature = s)

/-- What the default group means for a class. -/
def defaultSequence (r : Registry) (d : TypeDefinition) : Except Error DefaultSequence :=
  if d.isInterface then .ok .ordinary
  else
    match d.sequence, d.provider with
    | some _, some _ => .error (.sequenceAndProvider d.name)
    | some listed, none => do
      let groups ← redefinition d.name (some listed)
      if groups.length = 1 then return .ordinary
      return .listed groups (← Order.ofDefaultSequence r d.name groups)
    | none, some provider => do
      if let some bound := provider.bound then
        if !(← r.isAssignable bound d.name) then throw (.providerMismatch d.name bound)
      return .provided provider
    | none, none => .ok .ordinary

/-- Inserts a property into a list sorted by name. -/
def insertProperty (p : PropertyMetadata) : List PropertyMetadata → List PropertyMetadata
  | [] => [p]
  | q :: rest => if p.name < q.name then p :: q :: rest else q :: insertProperty p rest

end Assembly

open Assembly in
/-- Puts the metadata of a type together. -/
def Metadata.assemble (r : Registry) (rules : List MethodRule) (type : TypeName) :
    Except Error Metadata := do
  let own ← r.resolve type
  let hierarchy ← r.hierarchy type
  let definitions ← hierarchy.mapM r.resolve
  let default ← defaultSequence r own
  let elements ← (definitions.flatMap (propertiesOf type)).foldlM (mergeProperty r) []
  let bound := bindAll type 0 (definitions.flatMap (occurrencesOf type))
  let properties := elements.map fun (name, element) =>
    { name, element, constraints := bound.filter (·.location = .property name) : PropertyMetadata }
  let directInterfaces ← r.superInterfaces type
  let methods ← (groupBySignature (definitions.flatMap (memberMethods type))).foldlM
    (addExecutable r rules type) { next := bound.length }
  let constructors ← (if own.isInterface then [] else own.constructors).foldlM
    (fun a c => addExecutable r rules type a [c]) { next := methods.next }
  return {
    type
    isInterface := own.isInterface
    hierarchy
    properties := properties.foldl (fun sorted p => insertProperty p sorted) []
    cascaded := (elements.filter (·.2.hasCascades)).map (·.1)
    classConstraints := bound.filter (·.location = .self)
    directTypes := type :: directInterfaces
    methods := methods.executables
    constructors := constructors.executables
    default }

/-- The order that runs the default group of a type, where `groups` is what it stands for. -/
def Metadata.defaultOrder (m : Metadata) (r : Registry) (groups : List TypeName) :
    Except Error Order :=
  match m.default with
  | .ordinary => .ok .default
  | .listed _ order => .ok order
  | .provided _ => Order.ofDefaultSequence r m.type groups

/-- The metadata that is remembered. -/
abbrev MetadataCache := List (TypeName × Metadata)

/-- The metadata of a type, from memory if it is there. A type whose metadata cannot be put together
leaves nothing behind. -/
def Metadata.obtain (r : Registry) (rules : List MethodRule) (type : TypeName) :
    ExceptT Error (StateM MetadataCache) Metadata := do
  match (← get).lookup type with
  | some m => return m
  | none =>
    let m ← (assemble r rules type : Except Error Metadata)
    modify (· ++ [(type, m)])
    return m

end ObjectValidation
