import ObjectValidation.Constraint.Basic
import ObjectValidation.Path.Basic
import ObjectValidation.Value.Basic
/-!
# Violations

What a validation finds: a value that does not satisfy a constraint.
-/

namespace ObjectValidation

/-- A value that does not satisfy a constraint. -/
structure Violation where
  message : String
  /-- The text from which the message was made. -/
  template : String
  path : Path
  constraint : Constraint
  value : Value
  /-- The object the validation started at, if there was one. -/
  root : Option ObjectId
  rootType : TypeName
  /-- The object that the value belongs to, if there is one. -/
  leaf : Option ObjectId
  /-- The arguments of the call, where arguments were validated. -/
  arguments : Option (List Value)
  /-- The returned value, where it was validated. -/
  returned : Option Value

namespace Violation

/-- What tells violations apart: two of one key are reported once. -/
def key (v : Violation) : String × String × String × Option ObjectId :=
  (v.path.text, v.message, v.constraint.text, v.leaf)

/-- Whether two violations have the same key. -/
def isRepeatOf (v w : Violation) : Bool :=
  v.leaf = w.leaf && v.message = w.message && v.constraint.text = w.constraint.text &&
    v.path.text = w.path.text

theorem isRepeatOf_iff {v w : Violation} : v.isRepeatOf w = true ↔ v.key = w.key := by
  simp only [isRepeatOf, key, Bool.and_eq_true, decide_eq_true_eq, Prod.mk.injEq]
  grind

/-- The violation in words. One of the starting object itself shows the type of the object. -/
def text (v : Violation) : String :=
  (if v.path.isRoot then v.rootType.simple else v.path.text) ++ ": " ++ v.message

end Violation

end ObjectValidation
