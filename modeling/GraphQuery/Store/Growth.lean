import GraphQuery.Store.Basic

/-!
# How stores grow

A store grows by types, instances, attributes and edges. Each step writes what is new and keeps the
indexes in line with it; whether it may be taken is not decided here.
-/

namespace GraphQuery.Store

def nextId (s : Store) : ConceptId := ⟨s.size⟩

/-- The store that has met a label, and the number of the label. -/
def withLabel (s : Store) (l : Label) : LabelId × Store :=
  let (labels, id) := s.labels.intern l
  (id, { s with labels })

def withType (s : Store) (label : LabelId) (superType : Option ConceptId)
    (valueType : Option ValueType) : Store :=
  { s with
    concepts := s.concepts.push (.type label superType valueType)
    typesByLabel := s.typesByLabel.insert label s.nextId }

/-- The store in which more is known of a type: what was known stays. -/
def withTypeInfo (s : Store) (id : ConceptId) (superType : Option ConceptId)
    (valueType : Option ValueType) : Store :=
  match s.concept? id with
  | some (.type label knownSuper knownValue) =>
    let extended := .type label (knownSuper <|> superType) (knownValue <|> valueType)
    { s with concepts := s.concepts.setIfInBounds id.number extended }
  | _ => s

def withMember (s : Store) (type : ConceptId) (value : Option Value) : Store :=
  { s with
    concepts := s.concepts.push (.member type value)
    membersByType := s.membersByType.update type .empty (·.insert s.nextId) }

def withAttribute (s : Store) (type : ConceptId) (value : Value) : Store :=
  { s.withMember type (some value) with
    attributesByValue := ((type, value), s.nextId) :: s.attributesByValue }

/-- The store in which an instance owns an attribute. -/
def withHas (s : Store) (owner owned : ConceptId) : Store :=
  { s with
    attributesByOwner := s.attributesByOwner.update owner .empty (·.insert owned)
    ownersByAttribute := s.ownersByAttribute.update owned .empty (·.insert owner) }

def withRoleEdge (s : Store) (edge : RoleEdge) : Store :=
  { s with
    roleEdges := s.roleEdges ++ [edge]
    edgesByRelation := s.edgesByRelation.update edge.relation [] (· ++ [s.roleEdges.length])
    edgesByPlayer := s.edgesByPlayer.update edge.player [] (· ++ [s.roleEdges.length]) }

end GraphQuery.Store
