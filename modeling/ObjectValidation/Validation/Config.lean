import ObjectValidation.Metadata.Override
/-!
# Configurations

How a validation is to be done.
-/

namespace ObjectValidation

/-- The kinds of executables whose calls are validated. -/
structure ExecutableKinds where
  constructors : Bool
  getters : Bool
  methods : Bool
  deriving DecidableEq, Repr

namespace ExecutableKinds

/-- Every kind. -/
def all : ExecutableKinds := ⟨true, true, true⟩

/-- No kind. -/
def none : ExecutableKinds := ⟨false, false, false⟩

/-- Every kind but getters, which validation of the object covers. -/
def implicit : ExecutableKinds := ⟨true, false, true⟩

/-- Whether calls of a kind are validated. -/
def covers (k : ExecutableKinds) : ExecutableKind → Bool
  | .constructor => k.constructors
  | .getter => k.getters
  | .method => k.methods

end ExecutableKinds

/-- How a validation is to be done. -/
structure Config where
  /-- Whether to end with the first violation. -/
  failFast : Bool := false
  leniency : MethodLeniency := {}
  executables : ExecutableKinds := .implicit
  /-- Whether an object is passed over that has been validated for a group on the same way. -/
  trackProcessed : Bool := true
  deriving DecidableEq, Repr

namespace Config

/-- Calls of getters are validated too. -/
def strict : Config := { executables := .all }

/-- The rules on methods that can be relaxed are. -/
def lenient : Config := { leniency := .full }

/-- The first violation ends a validation. -/
def quick : Config := { failFast := true }

/-- The rules on methods in force. -/
def methodRules (c : Config) : List MethodRule := MethodRule.active c.leniency

end Config

end ObjectValidation
