import GraphQuery.Statement.Basic

/-!
# Building statements

A query may leave out the variables of types and attributes; each is then taken from a supply.
-/

namespace GraphQuery.Property

/-- That a variable is an instance of the type with this label. -/
def isaLabel (label : Label) : Fresh Property := do
  return isa (.labelled (← Supply.fresh) label) false

/-- That a variable owns the attribute `var` of the type. -/
def hasVariable (attributeType : Label) (var : Variable) : Fresh Property := do
  return has attributeType ((Statement.about var).and (← isaLabel attributeType))

/-- That a variable owns an attribute of the type whose value the predicate admits. -/
def hasPredicate (attributeType : Label) (predicate : ValuePredicate) : Fresh Property := do
  let var ← Supply.fresh
  let type ← isaLabel attributeType
  return has attributeType (((Statement.about var).and type).and (value predicate))

/-- That a variable owns an attribute of the type with this value. -/
def hasValue (attributeType : Label) (value : Value) : Fresh Property :=
  hasPredicate attributeType ⟨.equal, .constant value⟩

end GraphQuery.Property
