/-!
# Concepts

The schema of a graph names its types, attribute types and roles by labels; the concepts stored in
it, types and instances alike, go by number. An attribute type holds values of one datatype.
-/

namespace GraphQuery

/-- The name that a schema gives to a type, an attribute type or a role. -/
structure Label where
  name : String
  deriving Repr, DecidableEq, Inhabited

namespace Label

def text (l : Label) : String := l.name

instance : Ord Label := ⟨compareOn name⟩

instance : Std.TransOrd Label := inferInstanceAs (Std.TransCmp (compareOn name))

instance : Std.LawfulEqOrd Label where
  eq_of_compare {a b} h := by
    have e : a.name = b.name := Std.LawfulEqOrd.eq_of_compare (α := String) h
    cases a
    cases b
    exact congrArg mk e

end Label

/-- The number of a stored concept. -/
structure ConceptId where
  number : Nat
  deriving Repr, DecidableEq, Inhabited

namespace ConceptId

def text (id : ConceptId) : String := "V" ++ toString id.number

instance : Ord ConceptId := ⟨compareOn number⟩

instance : Std.TransOrd ConceptId := inferInstanceAs (Std.TransCmp (compareOn number))

instance : Std.LawfulEqOrd ConceptId where
  eq_of_compare {a b} h := by
    have e : a.number = b.number := Std.LawfulEqOrd.eq_of_compare (α := Nat) h
    cases a
    cases b
    exact congrArg mk e

end ConceptId

/-- The datatype of the values that an attribute type holds. -/
inductive ValueType where
  | string
  | long
  | double
  | boolean
  | datetime
  deriving Repr, DecidableEq, Ord

def ValueType.text : ValueType → String
  | string => "string"
  | long => "long"
  | double => "double"
  | boolean => "boolean"
  | datetime => "datetime"

end GraphQuery
