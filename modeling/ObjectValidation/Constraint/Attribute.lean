import ObjectValidation.Decimal.Shortest
/-!
# Attributes of constraints

The parameters of a constraint declaration, such as the bound of `@Min`.
-/

namespace ObjectValidation

/-- The value of an attribute. -/
inductive Attribute
  | bool (b : Bool)
  | int (n : Int)
  | float (x : Binary64)
  | str (s : String)
  deriving Repr, Inhabited

namespace Attribute

/-- The attribute as an integer; a floating point number loses its fraction. -/
def int? : Attribute → Option Int
  | .int n => some n
  | .float x => some x.truncate
  | _ => none

/-- The attribute as a floating point number. -/
def number? : Attribute → Option Binary64
  | .int n => some (Binary64.ofInt n)
  | .float x => some x
  | _ => none

/-- The text, if the attribute is one. -/
def str? : Attribute → Option String
  | .str s => some s
  | _ => none

/-- The truth value, if the attribute is one. -/
def bool? : Attribute → Option Bool
  | .bool b => some b
  | _ => none

/-- The text of an attribute. -/
def text : Attribute → String
  | .bool b => if b then "true" else "false"
  | .int n => toString n
  | .float x => x.text
  | .str s => s

/-- Whether two attributes are equal. What is no number differs from itself. -/
def same : Attribute → Attribute → Bool
  | .bool a, .bool b => a == b
  | .int a, .int b => a == b
  | .float a, .float b => a.same b
  | .str a, .str b => a == b
  | _, _ => false

end Attribute

end ObjectValidation
