import GraphQuery.Term.Concept

/-!
# Store errors

Why a store refuses an operation.
-/

namespace GraphQuery

/-- A reason to refuse an operation. -/
inductive StoreError where
  /-- The number is too large for a concept. -/
  | outOfRange (id : ConceptId)
  | unknownConcept (id : ConceptId)
  | notType (id : ConceptId)
  | notInstance (id : ConceptId)
  /-- Instances of the type have values, and none is given. -/
  | missingValue (type : ConceptId)
  /-- Values of the type have another datatype. -/
  | wrongDatatype (type : Label) (expected given : ValueType)
  /-- The type is not an immediate subtype of the type that it is now said to be. -/
  | otherSuperType (type : Label)
  /-- The type has another datatype than it is now said to have. -/
  | otherDatatype (type : Label)
  deriving Repr, DecidableEq

namespace StoreError

def message : StoreError → String
  | outOfRange id => "concept id " ++ id.text ++ " out of range"
  | unknownConcept id => "unknown concept " ++ id.text
  | notType id => "concept " ++ id.text ++ " is not a type"
  | notInstance id => "concept " ++ id.text ++ " is not an instance"
  | missingValue type => "attribute type " ++ type.text ++ " needs a value"
  | wrongDatatype type expected given =>
    "attribute type `" ++ type.text ++ "` holds " ++ expected.text ++ " values, got " ++ given.text
  | otherSuperType type =>
    "type `" ++ type.text ++ "` is already defined with a different supertype"
  | otherDatatype type =>
    "type `" ++ type.text ++ "` is already defined with a different datatype"

end StoreError

end GraphQuery
