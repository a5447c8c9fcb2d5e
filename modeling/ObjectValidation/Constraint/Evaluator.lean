import ObjectValidation.Constraint.Basic
import ObjectValidation.Object.Store
import ObjectValidation.Path.Basic
/-!
# Evaluators

An evaluator decides whether a value satisfies a constraint. It is registered for a kind of
constraints and for a kind of values, or for all kinds of values that have no evaluator of their
own.
-/

namespace ObjectValidation

/-- Where an evaluation takes place. -/
structure EvaluationSite where
  rootType : TypeName
  path : Path
  leaf : Option ObjectId

/-- What decides whether a value satisfies a constraint. -/
structure Evaluator where
  name : String
  /-- Whether the evaluator is one of those that are there from the start. -/
  isStandard : Bool
  check : Store → Constraint → Value → EvaluationSite → Except String Bool

/-- The registered evaluators. No two are registered for the same kinds. -/
structure Evaluators where
  entries : List ((String × Option ValueKind) × Evaluator)

namespace Evaluators

/-- No evaluators at all. -/
def empty : Evaluators := ⟨[]⟩

/-- The evaluators with one registered, in place of the one that was registered for the kinds. -/
def register (es : Evaluators) (kind : String) (valueKind : Option ValueKind) (e : Evaluator) :
    Evaluators :=
  ⟨es.entries.filter (fun entry => entry.1 != (kind, valueKind)) ++ [((kind, valueKind), e)]⟩

/-- The evaluator registered for exactly these kinds. -/
def get? (es : Evaluators) (kind : String) (valueKind : Option ValueKind) : Option Evaluator :=
  es.entries.lookup (kind, valueKind)

/-- The evaluator for a value: that for its kind once a present optional is unwrapped, else that for
all kinds. -/
def find? (es : Evaluators) (kind : String) (value : Value) : Option Evaluator :=
  (es.get? kind (some value.effective.kind)).or (es.get? kind none)

/-- The number of registrations. -/
def size (es : Evaluators) : Nat := es.entries.length

end Evaluators

end ObjectValidation
