import GraphQuery.Insert.Error
import GraphQuery.Store.Writing

/-!
# Drafts of concepts

What an insert says about a variable is collected in a draft, from which the concept is made when
the variable first needs one.
-/

namespace GraphQuery

/-- A computation that writes to a store. What it has written before it fails stays written. -/
abbrev WriteM := ExceptT WriteError (StateM Store)

/-- An operation on the store, which may refuse it. -/
def WriteM.ofStore {α : Type} (operation : StoreM α) : WriteM α :=
  ExceptT.adapt WriteError.refused operation

/-- What is said about a concept. -/
structure Draft where
  isa : Option ConceptId := none
  superType : Option ConceptId := none
  label : Option Label := none
  id : Option ConceptId := none
  valueType : Option ValueType := none
  value : Option Value := none
  deriving Repr, DecidableEq, Inhabited

namespace Draft

/-- Whether the draft says what only a new type can be told. -/
def definesType (d : Draft) : Bool := d.superType.isSome || d.valueType.isSome

/-- The concept of `v` that a draft describes. A number names a concept that is there. A label names
a type, which is defined if the draft says more of it. Anything else is a new instance, or the
attribute with the value. -/
def build (d : Draft) (v : Variable) : WriteM ConceptId := do
  match d.id, d.label, d.isa with
  | some id, _, _ =>
    if ← .ofStore (Store.contains id) then return id else throw (.unknownConcept id)
  | none, some label, _ =>
    if d.definesType then .ofStore (Store.defineType label d.superType d.valueType)
    else
      match (← get).typeWithLabel? label with
      | some type => return type
      | none => throw (.unknownLabel label)
  | none, none, some type =>
    if d.definesType then throw (.missingLabel v)
    match d.value with
    | some value => .ofStore (Store.putAttribute type value)
    | none => .ofStore (Store.insertMember type)
  | none, none, none => if d.definesType then throw (.missingLabel v) else throw (.missingType v)

end Draft

end GraphQuery
