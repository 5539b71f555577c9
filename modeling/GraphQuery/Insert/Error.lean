import GraphQuery.Store.Error
import GraphQuery.Term.Variable

/-!
# Write errors

Why an insert cannot be planned or carried out.
-/

namespace GraphQuery

/-- A reason why an insert fails. -/
inductive WriteError where
  /-- Writers wait for each other, or for such writers; these variables are left without them. -/
  | dependencyCycle (vars : List Variable)
  /-- A variable that needs a concept gets none. -/
  | unboundRequirement (var : Variable)
  /-- A variable that has a statement gets no concept from it. -/
  | nothingToInsert (var : Variable)
  | missingType (var : Variable)
  | missingLabel (var : Variable)
  | unknownLabel (label : Label)
  | unknownConcept (id : ConceptId)
  | refused (reason : StoreError)
  deriving Repr, DecidableEq

namespace WriteError

def message : WriteError → String
  | dependencyCycle vars =>
    "writer dependency cycle over " ++ String.intercalate ", " (vars.map (·.text))
  | unboundRequirement var =>
    "variable " ++ var.text ++ " is required by a writer but nothing binds or produces it"
  | nothingToInsert var =>
    "nothing to insert for " ++ var.text ++ ": none of its properties can be written"
  | missingType var => "cannot create " ++ var.text ++ " without a type"
  | missingLabel var => "cannot define type " ++ var.text ++ " without a label"
  | unknownLabel label => "no type labelled `" ++ label.text ++ "`"
  | unknownConcept id => "no concept with id " ++ id.text
  | refused reason => "storage error: " ++ reason.message

end WriteError

end GraphQuery
