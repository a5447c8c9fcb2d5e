import ObjectValidation.Type.Hierarchy
/-!
# Rules on overriding

A method may be declared by several types of a hierarchy. A caller who knows only one of them has to
be able to rely on what it demands: an override must not demand more of its arguments, and types
that do not know each other must not demand different things. Some of the rules can be relaxed.
-/

namespace ObjectValidation

/-- Which of the rules on methods are relaxed. -/
structure MethodLeniency where
  alteredParameters : Bool := false
  repeatedCascades : Bool := false
  parallelParameters : Bool := false
  deriving DecidableEq, Repr

/-- All rules that can be relaxed are. -/
def MethodLeniency.full : MethodLeniency := ⟨true, true, true⟩

/-- A rule on two declarations of one method, the two being possibly the same. -/
inductive MethodRule
  | unalteredParameters
  | agreeingParallels
  | unconstrainedVoid
  | singleCascade
  | unconvertedParallels
  deriving DecidableEq, Repr

namespace MethodRule

/-- The name of the rule. -/
def name : MethodRule → String
  | .unalteredParameters => "OverridingMethodMustNotAlterParameterConstraints"
  | .agreeingParallels => "ParallelMethodsMustNotDefineParameterConstraints"
  | .unconstrainedVoid => "VoidMethodsMustNotBeReturnValueConstrained"
  | .singleCascade => "ReturnValueMayOnlyBeMarkedOnceAsCascadedPerHierarchyLine"
  | .unconvertedParallels => "ParallelMethodsMustNotDefineGroupConversionForCascadedReturnValue"

/-- The rules in force, in the order in which they are applied. -/
def active (l : MethodLeniency) : List MethodRule :=
  (if l.alteredParameters then [] else [.unalteredParameters]) ++
  (if l.parallelParameters then [] else [.agreeingParallels]) ++
  [.unconstrainedVoid] ++
  (if l.repeatedCascades then [] else [.singleCascade]) ++
  [.unconvertedParallels]

variable (r : Registry)

/-- Whether the first type is a strict subtype of the second. -/
def isBelow (sub sup : TypeName) : Except Error Bool :=
  if sub = sup then .ok false else r.isAssignable sup sub

/-- Whether neither of two types is a subtype of the other. -/
def areParallel (s t : TypeName) : Except Error Bool := do
  if ← r.isAssignable s t then return false
  return !(← r.isAssignable t s)

/-- Whether the cascade into the returned value converts groups. -/
def convertsReturn (e : Executable) : Bool :=
  e.returnValue.own.cascading && !e.returnValue.own.conversions.isEmpty

/-- Fails if two declarations of a method break the rule. -/
def check (m o : Executable) : MethodRule → Except Error Unit
  | .unalteredParameters => do
    if ← isBelow r m.declaredBy o.declaredBy then
      if m.hasParameterConstraints && !m.parameterSubset o then
        throw (.parametersAltered m.signature m.declaredBy o.declaredBy)
  | .agreeingParallels => do
    if ← areParallel r m.declaredBy o.declaredBy then
      if (m.hasParameterConstraints || o.hasParameterConstraints) &&
          !(m.parameterSubset o && o.parameterSubset m) then
        throw (.parallelParameters m.signature m.declaredBy o.declaredBy)
  | .unconstrainedVoid => do
    if m.isVoid && m.returnValue.isConstrained then
      throw (.voidConstrained m.signature m.declaredBy)
  | .singleCascade => do
    if m.returnValue.own.cascading && o.returnValue.own.cascading then
      let below ← isBelow r m.declaredBy o.declaredBy
      let above ← if below then pure true else isBelow r o.declaredBy m.declaredBy
      if below || above then
        throw (.repeatedCascade m.signature m.declaredBy o.declaredBy)
  | .unconvertedParallels => do
    if convertsReturn m || convertsReturn o then
      if ← areParallel r m.declaredBy o.declaredBy then
        throw (.parallelConversion m.signature m.declaredBy o.declaredBy)

/-- Applies rules to each ordered pair of the declarations of a method. -/
def checkAll (rules : List MethodRule) (declarations : List Executable) : Except Error Unit :=
  declarations.forM fun m => declarations.forM fun o => rules.forM (check r m o)

end MethodRule

end ObjectValidation
