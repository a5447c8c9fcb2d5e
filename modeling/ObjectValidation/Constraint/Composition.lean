import ObjectValidation.Constraint.Basic
/-!
# Composed constraints

A composed constraint demands what all its parts demand, and what its own evaluator demands if there
is one. It reports each part that fails, or only itself where it is declared to.
-/

namespace ObjectValidation.Constraint

variable {m : Type → Type} [Monad m]

mutual

/-- The declarations to report for a value, where `judge` gives the verdict on a declaration without
its parts, or nothing if it has no verdict of its own. -/
def failing (judge : Constraint → m (Option Bool)) : Constraint → m (List Constraint)
  | ⟨kind, groups, payload, attributes, composing, single, template, site, declaredBy⟩ => do
    let c : Constraint :=
      ⟨kind, groups, payload, attributes, composing, single, template, site, declaredBy⟩
    let verdict ← judge c
    let parts ← failingParts judge single composing
    if single && !parts.isEmpty then return [c]
    return (if verdict = some false then [c] else []) ++ parts

/-- The declarations to report for the parts, where `single` says that one part is enough. -/
def failingParts (judge : Constraint → m (Option Bool)) (single : Bool) :
    List Constraint → m (List Constraint)
  | [] => pure []
  | part :: rest => do
    let nested ← failing judge part
    if single && !nested.isEmpty then return nested
    return nested ++ (← failingParts judge single rest)

end

end ObjectValidation.Constraint
