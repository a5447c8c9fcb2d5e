import ObjectValidation.Path.Reading
import ObjectValidation.Type.Name
import ObjectValidation.Value.Basic
/-!
# Errors

What stops an operation. Most errors are mistakes in declarations, found while the demands of a type
or an order of groups are put together; the others lie in a request or in an evaluator that fails.
-/

namespace ObjectValidation

/-- What is wrong with the draft of a type. -/
inductive DefinitionFault
  | interfaceExtends (type superclass : TypeName)
  | interfaceConstructs (type : TypeName)
  | interfaceHasFields (type : TypeName)
  | repeatedField (field : String) (type : TypeName)
  | unnamedMethod (type : TypeName)
  | staticConstructor (type : TypeName)
  deriving DecidableEq, Repr

/-- The fault in words. -/
def DefinitionFault.message : DefinitionFault → String
  | .interfaceExtends type superclass => s!"interface '{type}' cannot extend class '{superclass}'"
  | .interfaceConstructs type => s!"interface '{type}' cannot declare constructors"
  | .interfaceHasFields type => s!"interface '{type}' cannot declare fields"
  | .repeatedField field type => s!"field '{field}' is declared twice on '{type}'"
  | .unnamedMethod type => s!"method of '{type}' declared without a name"
  | .staticConstructor type => s!"constructor of '{type}' cannot be static"

/-- What is wrong with the group conversions of an element. -/
inductive ConversionFault
  | withoutCascade
  | repeatedSource (group : TypeName)
  | sequenceSource (group : TypeName)
  | conflict (group first second : TypeName)
  deriving DecidableEq, Repr

/-- The fault in words. -/
def ConversionFault.message : ConversionFault → String
  | .withoutCascade => "group conversions require cascaded validation"
  | .repeatedSource group => s!"group '{group}' is converted more than once"
  | .sequenceSource group => s!"group sequence '{group}' cannot be the source of a conversion"
  | .conflict group first second =>
    s!"group '{group}' is converted to both '{first}' and '{second}'"

/-- What stops an operation. -/
inductive Error
  | definition (fault : DefinitionFault)
  | typeNotFound (type : TypeName)
  | cyclicHierarchy (type : TypeName)
  | emptyGroups
  | notAGroup (group : TypeName)
  | cyclicSequence (sequence : TypeName)
  | unexpandableSequence (sequence group : TypeName)
  | unexpandableDefault (default sequence : List TypeName)
  | defaultInSequence (type : TypeName)
  | typeMissingFromSequence (type : TypeName)
  | emptySequence (type : TypeName)
  | sequenceAndProvider (type : TypeName)
  | providerMismatch (type bound : TypeName)
  | parametersAltered (method : Signature) (overriding overridden : TypeName)
  | parallelParameters (method : Signature) (first second : TypeName)
  | voidConstrained (method : Signature) (type : TypeName)
  | repeatedCascade (method : Signature) (first second : TypeName)
  | parallelConversion (method : Signature) (first second : TypeName)
  | invalidConversion (element : String) (fault : ConversionFault)
  | unknownProperty (type : TypeName) (property : String)
  | unknownParameter (executable : Signature) (index count : Nat)
  | parameterCount (executable : Signature) (expected actual : Nat)
  | invalidPath (path : String) (fault : Path.Fault)
  | factoryClosed
  | noEvaluator (kind : String) (valueKind : ValueKind)
  | evaluationFailed (kind path value reason : String)
  deriving DecidableEq, Repr

namespace Error

/-- The error in words. -/
def message : Error → String
  | .definition fault => fault.message
  | .typeNotFound type => s!"Type '{type}' is not registered"
  | .cyclicHierarchy type => s!"Type '{type}' inherits from itself"
  | .emptyGroups => "At least one group has to be specified"
  | .notAGroup group => s!"A group has to be an interface, but '{group}' is a class"
  | .cyclicSequence sequence =>
    s!"Cyclic dependency in groups definition: sequence '{sequence}' contains itself"
  | .unexpandableSequence sequence group =>
    s!"Unable to expand group sequence '{sequence}': group '{group}' is used at " ++
      "incompatible positions"
  | .unexpandableDefault default sequence =>
    "Unable to expand default group list " ++ TypeName.labels default ++ " into sequence " ++
      TypeName.labels sequence
  | .defaultInSequence type =>
    s!"'Default' is not allowed in the redefined default group sequence of '{type}'"
  | .typeMissingFromSequence type =>
    s!"'{type}' must be part of the redefined default group sequence"
  | .emptySequence type => s!"The redefined default group sequence of '{type}' is empty"
  | .sequenceAndProvider type =>
    s!"'{type}' declares both a group sequence and a default group sequence provider"
  | .providerMismatch type bound =>
    s!"The default group sequence provider defined for '{type}' has the wrong type: it is bound " ++
      s!"to '{bound}'"
  | .parametersAltered method overriding overridden =>
    s!"Method '{method}' of '{overriding}' alters the parameter constraints of the overridden " ++
      s!"method declared by '{overridden}'"
  | .parallelParameters method first second =>
    s!"Method '{method}' is declared with differing parameter constraints by parallel types " ++
      s!"'{first}' and '{second}'"
  | .voidConstrained method type =>
    s!"Void method '{method}' declared by '{type}' must not have return value constraints"
  | .repeatedCascade method first second =>
    s!"The return value of '{method}' is marked for cascaded validation by both '{first}' and " ++
      s!"'{second}'"
  | .parallelConversion method first second =>
    s!"Parallel types '{first}' and '{second}' must not define group conversions for the " ++
      s!"cascaded return value of '{method}'"
  | .invalidConversion element fault =>
    "Invalid group conversion on '" ++ element ++ "': " ++ fault.message
  | .unknownProperty type property => s!"Property '{property}' does not exist on '{type}'"
  | .unknownParameter executable index count =>
    s!"Executable '{executable}' has {count} parameters, index {index} does not exist"
  | .parameterCount executable expected actual =>
    s!"Executable '{executable}' expects {expected} parameters, got {actual}"
  | .invalidPath path fault => "Invalid property path '" ++ path ++ "': " ++ fault.message
  | .factoryClosed => "The validator factory has been closed"
  | .noEvaluator kind valueKind =>
    s!"No evaluator registered for constraint '{kind}' and value kind '{valueKind}'"
  | .evaluationFailed kind path value reason =>
    s!"Evaluation of constraint '{kind}' at '{path}' failed for value {value}: {reason}"

/-- The code of the error, by which it can be looked up. -/
def code : Error → String
  | .definition _ => "BV001"
  | .typeNotFound _ => "BV002"
  | .cyclicHierarchy _ => "BV003"
  | .emptyGroups => "BV010"
  | .notAGroup _ => "BV011"
  | .cyclicSequence _ => "BV012"
  | .unexpandableSequence .. => "BV013"
  | .unexpandableDefault .. => "BV014"
  | .defaultInSequence _ => "BV015"
  | .typeMissingFromSequence _ => "BV016"
  | .emptySequence _ => "BV017"
  | .sequenceAndProvider _ => "BV018"
  | .providerMismatch .. => "BV019"
  | .parametersAltered .. => "BV020"
  | .parallelParameters .. => "BV021"
  | .voidConstrained .. => "BV022"
  | .repeatedCascade .. => "BV023"
  | .parallelConversion .. => "BV024"
  | .invalidConversion .. => "BV025"
  | .unknownProperty .. => "BV040"
  | .unknownParameter .. => "BV041"
  | .parameterCount .. => "BV042"
  | .invalidPath .. => "BV043"
  | .factoryClosed => "BV050"
  | .noEvaluator .. => "BV060"
  | .evaluationFailed .. => "BV061"

/-- Whether the error is a mistake in declarations, whatever values are validated. -/
def isConfiguration : Error → Bool
  | .unknownProperty .. | .unknownParameter .. | .parameterCount .. | .invalidPath ..
  | .factoryClosed | .evaluationFailed .. => false
  | _ => true

end Error

end ObjectValidation
