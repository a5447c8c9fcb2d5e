import ObjectValidation.Text.Blank
/-!
# Names of types and signatures

Types, and with them groups, are known by name alone. A signature identifies an executable among
those of a type by its name and the types of its parameters without their type arguments.
-/

namespace ObjectValidation

/-- The name of a type or group. -/
structure TypeName where
  text : String
  deriving DecidableEq, Repr, Inhabited

namespace TypeName

/-- The group of all constraints that name no group. -/
def defaultGroup : TypeName := ⟨"beanval.groups.Default"⟩

/-- Whether the name is that of the default group. -/
def isDefault (t : TypeName) : Bool := t == defaultGroup

/-- The name as messages show it: the default group goes by its short name. -/
def label (t : TypeName) : String := if t.isDefault then "Default" else t.text

instance : ToString TypeName := ⟨label⟩

/-- The last part of a dotted name, without type arguments. -/
def simple (t : TypeName) : String :=
  let bare := t.text.toList.takeWhile (· != '<')
  String.ofList (bare.reverse.takeWhile (· != '.')).reverse

/-- The name without type arguments; a name that has none stays as it is, blanks included. -/
def erased (t : TypeName) : TypeName :=
  let cs := t.text.toList
  if cs.contains '<' then ⟨Text.trim (String.ofList (cs.takeWhile (· != '<')))⟩ else t

instance : Ord TypeName := ⟨fun s t => compare s.text t.text⟩

/-- A list of names as messages show it. -/
def labels (ts : List TypeName) : String :=
  "[" ++ ", ".intercalate (ts.map label) ++ "]"

end TypeName

/-- What tells an executable from the others of its type. -/
structure Signature where
  name : String
  parameterTypes : List TypeName
  deriving DecidableEq, Repr, Inhabited

namespace Signature

/-- The signature of an executable, whose parameter types are erased. -/
def of (name : String) (types : List TypeName) : Signature := ⟨name, types.map TypeName.erased⟩

/-- The signature as messages show it. -/
def text (s : Signature) : String :=
  s.name ++ "(" ++ ", ".intercalate (s.parameterTypes.map TypeName.label) ++ ")"

instance : ToString Signature := ⟨text⟩

/-- Signatures are ordered by name, then by the parameter types, of which a shorter list that begins
a longer one comes first. -/
def order (s t : Signature) : Ordering :=
  (compare s.name t.name).then (List.compareLex compare s.parameterTypes t.parameterTypes)

end Signature

end ObjectValidation
