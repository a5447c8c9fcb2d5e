import ObjectValidation.Type.Name
import ObjectValidation.Value.Basic
import ObjectValidation.Decimal.Shortest
/-!
# Objects

The objects that values refer to. An object has a type for life and properties that can be set and
removed, so references between objects may form cycles.
-/

namespace ObjectValidation

/-- An object: its type and the properties it has a value for. -/
structure Object where
  type : TypeName
  properties : Entries Value
  deriving Inhabited

/-- All objects by their identity. -/
structure Store where
  objects : List (ObjectId × Object)
  deriving Inhabited

namespace Store

/-- The store without objects. -/
def empty : Store := ⟨[]⟩

/-- The object of an identity. -/
def get? (s : Store) (id : ObjectId) : Option Object := s.objects.lookup id

/-- The type of an object; an identity of no object has the empty name as its type. -/
def typeOf (s : Store) (id : ObjectId) : TypeName := ((s.get? id).map (·.type)).getD ⟨""⟩

/-- The value that an object has for a property. -/
def property? (s : Store) (id : ObjectId) (name : String) : Option Value :=
  (s.get? id).bind fun o => Entries.get? name o.properties

/-- The value of a property, which is null if the object has none. -/
def property (s : Store) (id : ObjectId) (name : String) : Value :=
  (s.property? id name).getD .null

/-- The store with a new object without properties; it replaces one of the same identity. -/
def create (s : Store) (id : ObjectId) (type : TypeName) : Store :=
  ⟨s.objects.filter (fun o => o.1 != id) ++ [(id, ⟨type, []⟩)]⟩

/-- The store with the properties of one object changed. -/
def modify (s : Store) (id : ObjectId) (f : Entries Value → Entries Value) : Store :=
  ⟨s.objects.map fun (i, o) =>
    if i = id then (i, { o with properties := f o.properties }) else (i, o)⟩

/-- The store with a property of an object set. -/
def set (s : Store) (id : ObjectId) (name : String) (value : Value) : Store :=
  s.modify id (Entries.insert name value)

/-- The store with a property of an object removed. -/
def remove (s : Store) (id : ObjectId) (name : String) : Store :=
  s.modify id (Entries.erase name)

mutual

/-- The text of a value as messages show it. An object shows its type. -/
def text (s : Store) : Value → String
  | .null => "null"
  | .bool b => if b then "true" else "false"
  | .int n => toString n
  | .float x => x.text
  | .str t => t
  | .list items => "[" ++ ", ".intercalate (itemTexts s items) ++ "]"
  | .map entries => "\x7b" ++ ", ".intercalate (entryTexts s entries) ++ "\x7d"
  | .optional none => "Optional.empty"
  | .optional (some v) => "Optional[" ++ s.text v ++ "]"
  | .object id => (s.typeOf id).label

/-- The texts of the items of a list. -/
def itemTexts (s : Store) : List Value → List String
  | [] => []
  | v :: vs => s.text v :: itemTexts s vs

/-- The texts of the entries of a map, each a key and a value with an equals sign between. -/
def entryTexts (s : Store) : List (String × Value) → List String
  | [] => []
  | (k, v) :: rest => (k ++ "=" ++ s.text v) :: entryTexts s rest

end

end Store

end ObjectValidation
