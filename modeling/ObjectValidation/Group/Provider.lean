import ObjectValidation.Type.Definition
/-!
# Providers of default sequences

A provider that chooses by the properties of the object: the first rule that applies decides, else
the groups that go without a rule.
-/

namespace ObjectValidation

/-- Groups to choose; nothing where the provider has no answer. -/
abbrev GroupChoice := Option (List TypeName)

/-- The groups for objects whose property has the value. -/
structure ProviderRule where
  property : String
  value : Value
  choice : GroupChoice

/-- A provider as a table of rules. -/
structure ProviderTable where
  rules : List ProviderRule := []
  otherwise : GroupChoice
  /-- What to choose where there is no object, if that differs. -/
  withoutObject : Option GroupChoice := none

namespace ProviderTable

/-- The name in a table that stands for the type whose provider is asked. -/
def typePlaceholder : TypeName := ⟨"$type"⟩

/-- Whether a rule applies to an object. -/
def applies (s : Store) (id : ObjectId) (rule : ProviderRule) : Bool :=
  (s.property? id rule.property).any (·.same rule.value)

/-- The choice for an object, or for the lack of one. -/
def choose (t : ProviderTable) (s : Store) : Option ObjectId → GroupChoice
  | none => t.withoutObject.getD t.otherwise
  | some id => ((t.rules.find? (applies s id)).map (·.choice)).getD t.otherwise

/-- The provider that chooses by a table. -/
def provider (t : ProviderTable) (bound : Option TypeName) : SequenceProvider where
  bound
  groups s type id :=
    (t.choose s id).map fun gs => gs.map fun g => if g = typePlaceholder then type else g

end ProviderTable

end ObjectValidation
