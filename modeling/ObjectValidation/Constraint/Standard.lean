import ObjectValidation.Constraint.Evaluator
import ObjectValidation.Text.Blank
/-!
# Standard constraints

The constraints that are there from the start, with their messages and the attributes they have
without being given. All of them but those on null, emptiness and blankness accept null.
-/

namespace ObjectValidation.Standard

/-- The message of a constraint that brings none. -/
def template : String → String
  | "NotNull" => "must not be null"
  | "Null" => "must be null"
  | "AssertTrue" => "must be true"
  | "AssertFalse" => "must be false"
  | "Min" => "must be greater than or equal to \x7bvalue\x7d"
  | "Max" => "must be less than or equal to \x7bvalue\x7d"
  | "Positive" => "must be greater than 0"
  | "Negative" => "must be less than 0"
  | "Size" => "size must be between \x7bmin\x7d and \x7bmax\x7d"
  | "Length" => "length must be between \x7bmin\x7d and \x7bmax\x7d"
  | "NotEmpty" => "must not be empty"
  | "NotBlank" => "must not be blank"
  | kind => "must satisfy " ++ kind

/-- The attribute that constraints of a kind have unless they are given another. -/
def attribute? (kind name : String) : Option Attribute :=
  if kind = "Size" ∨ kind = "Length" then
    if name = "min" then some (.int 0)
    else if name = "max" then some (.int 2147483647)
    else none
  else none

end Standard

/-- The attribute that a constraint is given, or has without being given. -/
def Constraint.effectiveAttribute? (c : Constraint) (name : String) : Option Attribute :=
  (c.attribute? name).or (Standard.attribute? c.kind name)

namespace Standard

/-- The integer that an attribute holds. -/
def integer (c : Constraint) (name : String) : Except String Int :=
  match (c.effectiveAttribute? name).bind (·.int?) with
  | some n => .ok n
  | none => .error s!"attribute '{name}' of {c.text} is not an integer"

/-- A standard evaluator, which looks at nothing but the constraint and the value. -/
def evaluator (name : String) (check : Constraint → Value → Except String Bool) : Evaluator where
  name
  isStandard := true
  check _ c v _ := check c v

/-- Accepts null only, or all but null. -/
def nullCheck (expectNull : Bool) : Evaluator :=
  evaluator (if expectNull then "Null" else "NotNull") fun _ v => .ok (v.isNull == expectNull)

/-- Accepts one truth value. -/
def assertion (expected : Bool) : Evaluator :=
  evaluator "Assert" fun _ v => .ok (v.bool?.all (· == expected))

/-- Accepts numbers that are not on the wrong side of the attribute `value`; what is no number is on
no side and is not accepted. -/
def bound (name : String) (wrong : Ordering) : Evaluator :=
  evaluator name fun c v =>
    match v with
    | .null => .ok true
    | .int n => do return compare n (← integer c "value") != wrong
    | .float x =>
      match (c.attribute? "value").bind (·.number?) with
      | some bound => .ok ((x.compare? bound).any (· != wrong))
      | none => .error s!"attribute 'value' of {c.text} is not a number"
    | v => .error s!"{name} cannot validate {v.kind}"

/-- Accepts the numbers on one side of zero. -/
def sign (name : String) (side : Ordering) : Evaluator :=
  evaluator name fun _ v =>
    if v.isNull then .ok true
    else
      match v.number? with
      | some x => .ok (x.compare? (.finite false 0) == some side)
      | none => .error s!"{name} cannot validate {v.kind}"

/-- Accepts values whose size lies within the bounds. -/
def sizeRange : Evaluator :=
  evaluator "Size" fun c v =>
    match v.size? with
    | none => .ok v.isNull
    | some size => do
      let least ← integer c "min"
      let greatest ← integer c "max"
      if least < 0 ∨ greatest < least then throw s!"invalid bounds in {c.text}"
      return least ≤ size && size ≤ greatest

/-- Accepts values that have a size, which is not zero. -/
def notEmpty : Evaluator := evaluator "NotEmpty" fun _ v => .ok (v.size?.any (0 < ·))

/-- Accepts texts with a character that is not blank. -/
def notBlank : Evaluator := evaluator "NotBlank" fun _ v => .ok (v.str?.any (!Text.allBlank ·))

/-- The kinds of values for which null checks are registered: all but optionals, which evaluators
never see one layer deep. -/
def nullKinds : List ValueKind := [.null, .bool, .int, .float, .str, .list, .map, .object]

/-- The standard evaluators with the kinds of values they are registered for. -/
def table : List (String × Evaluator × List ValueKind) := [
  ("NotNull", nullCheck false, nullKinds),
  ("Null", nullCheck true, nullKinds),
  ("AssertTrue", assertion true, [.bool, .null]),
  ("AssertFalse", assertion false, [.bool, .null]),
  ("Min", bound "Min" .lt, [.int, .float, .null]),
  ("Max", bound "Max" .gt, [.int, .float, .null]),
  ("Positive", sign "Positive" .gt, [.int, .float, .null]),
  ("Negative", sign "Negative" .lt, [.int, .float, .null]),
  ("Size", sizeRange, [.str, .list, .map, .null]),
  ("NotEmpty", notEmpty, [.str, .list, .map, .null]),
  ("Length", sizeRange, [.str, .null]),
  ("NotBlank", notBlank, [.str, .null])]

/-- The evaluators that are there from the start. -/
def evaluators : Evaluators :=
  table.foldl (fun es (kind, e, valueKinds) =>
    valueKinds.foldl (fun es valueKind => es.register kind (some valueKind) e) es) .empty

end Standard

end ObjectValidation
