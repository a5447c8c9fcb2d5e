import ObjectValidation.Type.Registry
/-!
# Hierarchies

The types above a type: its chain of superclasses and the interfaces that the classes of the chain
implement, directly or through other interfaces. A type that is above itself has no hierarchy, nor
has one that names an unknown type somewhere above it.
-/

namespace ObjectValidation.Registry

variable (r : Registry)

/-- The superclasses that follow the last class of a chain, in order. -/
def chainFrom (chain : List TypeName) (last : TypeDefinition) : Except Error (List TypeName) :=
  match last.superclass with
  | none => .ok chain
  | some name =>
    if _hs : name ∈ chain then .error (.cyclicHierarchy name)
    else
      match _h : r.get? name with
      | none => .error (.typeNotFound name)
      | some d => chainFrom (chain ++ [name]) d
termination_by r.unmetWeight chain
decreasing_by exact unmetWeight_lt _h _hs

/-- A type and its superclasses, the nearest first. -/
def classHierarchy (name : TypeName) : Except Error (List TypeName) := do
  r.chainFrom [name] (← r.resolve name)

/-- The names seen so far with those that the pending ones lead to through interfaces, depth first:
each name is followed by the interfaces it lists before the rest is taken up. -/
def collect (seen pending : List TypeName) : Except Error (List TypeName) :=
  match pending with
  | [] => .ok seen
  | name :: rest =>
    if _hs : name ∈ seen then collect seen rest
    else
      match _h : r.get? name with
      | none => .error (.typeNotFound name)
      | some d => collect (seen ++ [name]) (d.interfaces ++ rest)
termination_by r.unmetWeight seen + pending.length
decreasing_by
  · simp
  · have := unmetWeight_visit _h _hs
    simp
    omega

/-- The interfaces that a type implements or extends, directly or through other interfaces. -/
def superInterfaces (name : TypeName) : Except Error (List TypeName) := do
  let d ← r.resolve name
  return (← r.collect [name] d.interfaces).drop 1

/-- Follows the supertypes of a type depth first and fails where it comes upon a type on its own
path, or upon an unknown one. The types known to be sound are not followed again; the answer is
these with the type added. -/
def soundFrom (path : List TypeName) (name : TypeName) (sound : List TypeName) :
    Except Error (List TypeName) :=
  if name ∈ sound then .ok sound
  else if _hs : name ∈ path then .error (.cyclicHierarchy name)
  else
    match _h : r.get? name with
    | none => .error (.typeNotFound name)
    | some d => do
      let path := path ++ [name]
      return name :: (← d.supertypes.foldlM (fun sound above => soundFrom path above sound) sound)
termination_by r.unmetWeight path
decreasing_by exact unmetWeight_lt _h _hs

/-- A type, its superclasses, and then the interfaces of these classes, each depth first. -/
def hierarchy (name : TypeName) : Except Error (List TypeName) := do
  let _ ← r.soundFrom [] name []
  let classes ← r.classHierarchy name
  let listed ← classes.mapM fun c => return (← r.resolve c).interfaces
  r.collect classes listed.flatten

/-- Whether a value of the second type is one of the first type as well. -/
def isAssignable (sup sub : TypeName) : Except Error Bool := do
  if sup = sub then return true
  return (← r.hierarchy sub).contains sup

end ObjectValidation.Registry
