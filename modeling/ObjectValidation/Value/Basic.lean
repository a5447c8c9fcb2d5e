import ObjectValidation.Decimal.Binary64
import ObjectValidation.Text.Entries
/-!
# Values

What a property, an argument or a returned value can be. Objects are values by identity: two of them
are equal if they are the same object, whatever they hold.
-/

namespace ObjectValidation

/-- The identity of an object. -/
structure ObjectId where
  key : String
  deriving DecidableEq, Repr, Inhabited

/-- The kinds of values, by which evaluators are chosen. -/
inductive ValueKind
  | null | bool | int | float | str | list | map | optional | object
  deriving DecidableEq, Repr

/-- The kind as messages show it. -/
def ValueKind.label : ValueKind → String
  | .null => "Null"
  | .bool => "Bool"
  | .int => "Int"
  | .float => "Float"
  | .str => "Str"
  | .list => "List"
  | .map => "Map"
  | .optional => "Optional"
  | .object => "Bean"

instance : ToString ValueKind := ⟨ValueKind.label⟩

/-- A value. The entries of a map are sorted by key. -/
inductive Value
  | null
  | bool (b : Bool)
  | int (n : Int)
  | float (x : Binary64)
  | str (s : String)
  | list (items : List Value)
  | map (entries : List (String × Value))
  | optional (inner : Option Value)
  | object (id : ObjectId)
  deriving Inhabited

namespace Value

/-- The kind of a value. -/
def kind : Value → ValueKind
  | .null => .null
  | .bool _ => .bool
  | .int _ => .int
  | .float _ => .float
  | .str _ => .str
  | .list _ => .list
  | .map _ => .map
  | .optional _ => .optional
  | .object _ => .object

/-- Whether the value is null or an empty optional. -/
def isNull : Value → Bool
  | .null | .optional none => true
  | _ => false

/-- The object, if the value is one. -/
def object? : Value → Option ObjectId
  | .object id => some id
  | _ => none

/-- The text, if the value is one. -/
def str? : Value → Option String
  | .str s => some s
  | _ => none

/-- The truth value, if the value is one. -/
def bool? : Value → Option Bool
  | .bool b => some b
  | _ => none

/-- The number as a floating point number, if the value is an integer or a floating point number. -/
def number? : Value → Option Binary64
  | .int n => some (Binary64.ofInt n)
  | .float x => some x
  | _ => none

/-- The number of characters, items or entries of a value that has any. -/
def size? : Value → Option Nat
  | .str s => some s.length
  | .list items => some items.length
  | .map entries => some entries.length
  | _ => none

/-- The value inside a present optional, one layer deep; any other value is itself. -/
def unwrapped : Value → Value
  | .optional (some v) => v
  | v => v

/-- The value that evaluators see: one layer of a present optional is removed and an empty optional
is null. -/
def effective : Value → Value
  | .optional none => .null
  | .optional (some v) => v
  | v => v

mutual

/-- Whether two values are equal. Values of different kinds never are. -/
def same : Value → Value → Bool
  | .null, .null => true
  | .bool a, .bool b => a == b
  | .int a, .int b => a == b
  | .float a, .float b => a.same b
  | .str a, .str b => a == b
  | .list xs, .list ys => sameItems xs ys
  | .map xs, .map ys => sameEntries xs ys
  | .optional none, .optional none => true
  | .optional (some x), .optional (some y) => x.same y
  | .object a, .object b => a == b
  | _, _ => false

/-- Whether two lists have equal values in the same order. -/
def sameItems : List Value → List Value → Bool
  | [], [] => true
  | x :: xs, y :: ys => x.same y && sameItems xs ys
  | _, _ => false

/-- Whether two maps have the same keys with equal values. -/
def sameEntries : List (String × Value) → List (String × Value) → Bool
  | [], [] => true
  | (k, x) :: xs, (l, y) :: ys => k == l && x.same y && sameEntries xs ys
  | _, _ => false

end

end Value

end ObjectValidation
