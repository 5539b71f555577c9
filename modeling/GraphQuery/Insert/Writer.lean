import GraphQuery.Collection.SortedSet
import GraphQuery.Statement.Text

/-!
# Writers

A writer is what one property contributes to an insert. It requires concepts for some variables, and
either says something about the concept of its own variable, which it thereby helps to produce, or
links concepts that are there.
-/

namespace GraphQuery

inductive WriteAction where
  | isa (type : Variable)
  | sub (superType : Variable)
  | label (label : Label)
  | id (id : ConceptId)
  /-- The variable is an attribute type with values of this datatype. -/
  | dataType (type : ValueType)
  | value (value : Value)
  | has (owned : Variable)
  | rolePlayers (players : List RolePlayer)
  deriving Repr

/-- What one property contributes to an insert. -/
structure Writer where
  var : Variable
  property : PropertyKind
  /-- The variables that need a concept before. -/
  required : SortedSet Variable
  /-- The variables whose concept the writer helps to produce. -/
  produced : SortedSet Variable
  action : WriteAction

namespace Writer

/-- A writer that helps to produce the concept of its variable. -/
def producing (var : Variable) (property : PropertyKind) (required : List Variable)
    (action : WriteAction) : Writer :=
  ⟨var, property, .ofList required, .ofList [var], action⟩

/-- A writer that links concepts that are there. -/
def linking (var : Variable) (property : PropertyKind) (required : List Variable)
    (action : WriteAction) : Writer :=
  ⟨var, property, .ofList required, .empty, action⟩

/-- The kind of the property with its variable, then what is required and what is produced. -/
def text (w : Writer) : String :=
  let list (vs : SortedSet Variable) := String.intercalate ", " (vs.toList.map (·.text))
  w.property.text ++ "(" ++ w.var.text ++ ") [" ++ list w.required ++ "] -> [" ++
    list w.produced ++ "]"

end Writer

end GraphQuery
