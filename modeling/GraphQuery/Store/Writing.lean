import GraphQuery.Store.Error
import GraphQuery.Store.Growth

/-!
# Writing to a store

Types are defined, instances and attributes created, and edges added. An operation that the store
refuses leaves all that can be read as it was. Defining a type again, or putting an attribute or an
edge that is already there, finds what is there.
-/

namespace GraphQuery

/-- The limit of the numbers of concepts: they have 32 bits. -/
def ConceptId.limit : Nat := UInt32.size

/-- An operation on a store. What it has written before it is refused stays written. -/
abbrev StoreM := ExceptT StoreError (StateM Store)

namespace Store

/-- Refuses a number that no concept can have. -/
def checkRange (id : ConceptId) : StoreM PUnit :=
  if id.number < ConceptId.limit then pure ⟨⟩ else throw (.outOfRange id)

def readType (id : ConceptId) : StoreM (LabelId × Option ValueType) := do
  match (← get).concept? id with
  | some (.type label _ valueType) => return (label, valueType)
  | some (.member ..) => throw (.notType id)
  | none => throw (.unknownConcept id)

/-- Refuses a concept that is no instance. -/
def checkMember (id : ConceptId) : StoreM PUnit := do
  match (← get).concept? id with
  | some (.member ..) => return ⟨⟩
  | some (.type ..) => throw (.notInstance id)
  | none => throw (.unknownConcept id)

def contains (id : ConceptId) : StoreM Bool := do
  checkRange id
  return ((← get).concept? id).isSome

/-- Says more of the type with a label: nothing that contradicts what is known of it. -/
def extendType (l : Label) (id : ConceptId) (superType : Option ConceptId)
    (valueType : Option ValueType) : StoreM PUnit := do
  let s ← get
  if superType.isSome ∧ s.superType? id ≠ superType then throw (.otherSuperType l)
  if valueType.isSome ∧ (s.valueType? id).isSome ∧ s.valueType? id ≠ valueType then
    throw (.otherDatatype l)
  set (s.withTypeInfo id superType valueType)

/-- The type with a label, which is defined if it is not there. A new type takes over the datatype
of its supertype unless it is given one of its own. -/
def defineType (l : Label) (superType : Option ConceptId) (valueType : Option ValueType) :
    StoreM ConceptId := do
  let label ← modifyGet (·.withLabel l)
  superType.forM checkRange
  let inherited ← match superType with
    | some upper => pure (← readType upper).2
    | none => pure none
  match (← get).typesByLabel.get? label with
  | some id =>
    extendType l id superType valueType
    return id
  | none => modifyGet fun s => (s.nextId, s.withType label superType (valueType <|> inherited))

/-- A new instance of a type whose instances have no values. -/
def insertMember (type : ConceptId) : StoreM ConceptId := do
  checkRange type
  let (_, valueType) ← readType type
  if valueType.isSome then throw (.missingValue type)
  modifyGet fun s => (s.nextId, s.withMember type none)

/-- The attribute of a type with a value, which is created if it is not there. -/
def putAttribute (type : ConceptId) (value : Value) : StoreM ConceptId := do
  checkRange type
  let (label, valueType) ← readType type
  let s ← get
  if let some expected := valueType then
    if expected ≠ value.type then
      throw (.wrongDatatype ((s.labels.label? label).getD ⟨""⟩) expected value.type)
  match s.attributesByValue.lookup (type, value) with
  | some id => return id
  | none => modifyGet fun s => (s.nextId, s.withAttribute type value)

/-- Makes an instance the owner of an attribute. -/
def addHas (owner owned : ConceptId) : StoreM PUnit := do
  checkRange owner
  checkRange owned
  checkMember owner
  checkMember owned
  modify (·.withHas owner owned)

/-- Makes an instance a player of a relation, in a role if one is given. -/
def addRolePlayer (relation : ConceptId) (role : Option Label) (player : ConceptId) :
    StoreM PUnit := do
  checkRange relation
  checkRange player
  let role ← role.mapM fun l => modifyGet (·.withLabel l)
  checkMember relation
  checkMember player
  let edge : RoleEdge := ⟨relation, role, player⟩
  modify fun s => if edge ∈ s.roleEdges then s else s.withRoleEdge edge

end Store

end GraphQuery
