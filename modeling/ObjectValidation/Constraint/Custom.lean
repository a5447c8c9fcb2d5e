import ObjectValidation.Constraint.Evaluator
/-!
# Evaluators beyond the standard ones

Evaluators of a few simple kinds, for constraints of one's own.
-/

namespace ObjectValidation.Evaluator

/-- What an evaluator of one's own does. -/
inductive Behavior
  /-- Gives the same verdict on every value. -/
  | verdict (valid : Bool)
  /-- Accepts even integers. -/
  | even
  /-- Accepts lists whose neighbouring numbers ascend. -/
  | ascending
  /-- Accepts texts that begin with the attribute `prefix`. -/
  | startsWith
  /-- Accepts objects that have a value for the property that the attribute `property` names. -/
  | hasProperty
  /-- Fails on every value. -/
  | fail
  deriving DecidableEq, Repr

/-- Whether the neighbours that are both numbers ascend. -/
def ascends : List Value → Bool
  | x :: y :: rest =>
    (match x.number?, y.number? with
      | some a, some b => a.below b
      | _, _ => true) && ascends (y :: rest)
  | _ => true

/-- The text that an attribute holds. -/
def textAttribute (c : Constraint) (name : String) : Except String String :=
  match (c.attribute? name).bind (·.str?) with
  | some s => .ok s
  | none => .error ("no " ++ name)

/-- The verdict of a behavior that is registered for a kind of constraints. -/
def Behavior.check (kind : String) (s : Store) (c : Constraint) (v : Value) :
    Behavior → Except String Bool
  | .verdict valid => .ok valid
  | .even =>
    match v with
    | .int n => .ok (n % 2 == 0)
    | _ => .error ("unexpected value " ++ s.text v)
  | .ascending =>
    match v with
    | .list items => .ok (ascends items)
    | _ => .error "not a list"
  | .startsWith => do
    let start ← textAttribute c "prefix"
    return v.str?.any fun t => start.toList.isPrefixOf t.toList
  | .hasProperty => do
    let property ← textAttribute c "property"
    return v.object?.any fun id => (s.property? id property).any (!·.isNull)
  | .fail => .error (kind ++ " failed")

/-- The evaluator of a behavior. -/
def ofBehavior (kind name : String) (b : Behavior) : Evaluator where
  name
  isStandard := false
  check s c v _ := b.check kind s c v

end ObjectValidation.Evaluator
