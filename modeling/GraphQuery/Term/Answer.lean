import GraphQuery.Collection.SortedMap
import GraphQuery.Term.Concept
import GraphQuery.Term.Variable

/-!
# Answers

An answer binds variables to stored concepts.
-/

namespace GraphQuery

/-- What each variable is bound to. -/
abbrev Answer := SortedMap Variable ConceptId

/-- The answer with one more binding, unless the variable is bound to another concept. -/
def Answer.bind? (answer : Answer) (v : Variable) (concept : ConceptId) : Option Answer :=
  match SortedMap.get? answer v with
  | some bound => if bound = concept then some answer else none
  | none => some (SortedMap.insert answer v concept)

end GraphQuery
