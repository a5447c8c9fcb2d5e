import ObjectValidation.Element.Basic
import ObjectValidation.Type.Registry
/-!
# Merging elements

A property or an executable may be declared by several types of a hierarchy; what all of them demand
applies. Only conversions can contradict each other. Each declaration on its own has to tie its
conversions to a cascade and to leave no doubt which group a group is converted to.
-/

namespace ObjectValidation

/-- The first of the added conversions that takes a group elsewhere than one of the existing does,
with the target that the group has already. -/
def conflict? (existing added : List Conversion) : Option ConversionFault :=
  added.findSome? fun c =>
    (existing.find? fun e => e.source = c.source && e.target != c.target).map fun e =>
      .conflict c.source e.target c.target

/-- Fails with the fault, if there is one, at the element of the name. -/
def faultAt (name : String) (fault : Option ConversionFault) : Except Error Unit :=
  match fault with
  | some f => .error (.invalidConversion name f)
  | none => .ok ()

/-- The name of the demands on contained values, which follows that of the element. -/
def containerName (name : String) (kind : ContainerKind) : String := name ++ "." ++ kind.label

/-- What is wrong with the conversions of a facet: without a cascade they have no use; a group has
at most one target; and a sequence has none, because cascades go on for single groups. -/
def Facet.conversionFault? (r : Registry) (f : Facet) : Option ConversionFault :=
  if f.conversions.isEmpty then none
  else if !f.cascading then some .withoutCascade
  else
    (List.range f.conversions.length).findSome? fun i =>
      (f.conversions[i]?).bind fun c =>
        if (f.conversions.take i).any (·.source = c.source) then some (.repeatedSource c.source)
        else if r.isGroupSequence c.source then some (.sequenceSource c.source)
        else none

namespace Element

/-- Fails if the conversions of the element, or of a contained value, are faulty. -/
def checkConversions (r : Registry) (name : String) (e : Element) : Except Error Unit := do
  faultAt name (e.own.conversionFault? r)
  e.containers.forM fun (kind, facet) =>
    faultAt (containerName name kind) (facet.conversionFault? r)

/-- Fails if conversions of the two elements contradict each other. -/
def checkMerge (name : String) (e d : Element) : Except Error Unit := do
  faultAt name (conflict? e.own.conversions d.own.conversions)
  d.containers.forM fun (kind, facet) =>
    faultAt (containerName name kind)
      ((e.container? kind).bind fun existing => conflict? existing.conversions facet.conversions)

/-- The element that demands what either of two elements demands. -/
def union (e d : Element) : Element :=
  d.containers.foldl (fun e (kind, facet) => e.addContainer kind facet)
    { e with own := e.own.merge d.own }

/-- The union of two elements, unless their conversions contradict each other. -/
def merge (name : String) (e d : Element) : Except Error Element := do
  checkMerge name e d
  return e.union d

end Element

end ObjectValidation
