import ObjectValidation.Validation.Operations
/-!
# Factories

A factory holds what its validators share: evaluators, configuration and memory. Closing it clears
the memory and ends the handing out of validators; those handed out go on working.
-/

namespace ObjectValidation

/-- What validators share. -/
structure Factory where
  evaluators : Evaluators
  config : Config
  memory : Memory := {}
  isClosed : Bool := false

namespace Factory

/-- The validator of a factory over a registry and a store of objects. -/
def validator (f : Factory) (registry : Registry) (store : Store) : Validator where
  registry
  evaluators := f.evaluators
  config := f.config
  store
  memory := f.memory

/-- Fails if the factory is closed. -/
def requireOpen (f : Factory) : Except Error Unit :=
  if f.isClosed then .error .factoryClosed else .ok ()

/-- The factory once it is closed. -/
def close (f : Factory) : Factory :=
  if f.isClosed then f else { f with memory := {}, isClosed := true }

/-- Puts the metadata of every class together and answers their number. -/
def warmUp (f : Factory) (registry : Registry) : Except Error Nat × Factory :=
  match f.requireOpen with
  | .error e => (.error e, f)
  | .ok () =>
    let obtainAll : ExceptT Error (StateM MetadataCache) Unit :=
      registry.classes.forM fun type => do
        let _ ← Metadata.obtain registry f.config.methodRules type
    let (answer, metadata) := (obtainAll.run.run f.memory.metadata).run
    (answer.map fun () => registry.classes.length,
      { f with memory := { f.memory with metadata } })

/-- The factory with an evaluator registered. -/
def register (f : Factory) (kind : String) (valueKind : Option ValueKind) (e : Evaluator) :
    Factory :=
  { f with evaluators := f.evaluators.register kind valueKind e }

end Factory

end ObjectValidation
