import ObjectValidation.Constraint.Custom
import ObjectValidation.Decimal.Reading
import ObjectValidation.Group.Provider
import ObjectValidation.Type.Draft
import ObjectValidation.Validation.Factory
import ObjectValidation.Proofs.ShortCircuit
import ObjectValidation.Proofs.Clean
import ObjectValidation.Proofs.Cycles
import ObjectValidation.Proofs.Independence
import ObjectValidation.Proofs.FirstViolation
import ObjectValidation.Proofs.Marks
import ObjectValidation.Proofs.Conversions
import ObjectValidation.Proofs.Flattening
import ObjectValidation.Proofs.Nesting
import ObjectValidation.Proofs.Chains
import ObjectValidation.Proofs.History
import ObjectValidation.Proofs.Meaning
import ObjectValidation.Proofs.Splicing
import ObjectValidation.Proofs.Fitting
import ObjectValidation.Proofs.Interfaces
import ObjectValidation.Proofs.Substitution
import ObjectValidation.Proofs.Declarations
import ObjectValidation.Proofs.Repetition
import ObjectValidation.Proofs.Ways
import ObjectValidation.Proofs.Construction
import ObjectValidation.Proofs.Overrides
import ObjectValidation.Proofs.Reporting
import ObjectValidation.Proofs.Inheritance
import ObjectValidation.Proofs.OnceEach
import ObjectValidation.Proofs.Navigation
import ObjectValidation.Proofs.Assignability
import ObjectValidation.Proofs.GroupKinds
import ObjectValidation.Proofs.Merging
import ObjectValidation.Proofs.Projection
import ObjectValidation.Proofs.Arguments
import ObjectValidation.Proofs.Covering
import ObjectValidation.Proofs.Composition
import ObjectValidation.Proofs.Aggregation
import ObjectValidation.Proofs.Equality
import ObjectValidation.Proofs.Uniting
import ObjectValidation.Proofs.Rules
import ObjectValidation.Proofs.Grammar
import ObjectValidation.Proofs.Providers
import ObjectValidation.Proofs.Faults
import ObjectValidation.Proofs.Templates
import ObjectValidation.Proofs.NullChecks
import ObjectValidation.Proofs.Getters
import ObjectValidation.Proofs.Joins
