import GraphQuery.Collection.SortedMap
import GraphQuery.Store.LabelTable
import GraphQuery.Term.Value

/-!
# Stores

A store holds a graph in memory. Its concepts are the types of the schema and their instances, each
known by its place among them; an instance with a value is an attribute. Edges lead from instances
to the attributes that they own and from relations to their players.

What is looked up often is indexed: types by label, instances by type, attributes by type and value,
and both kinds of edge from either end. Of a role edge the indexes hold its number, which is its
place among the role edges.
-/

namespace GraphQuery

inductive Concept where
  | type (label : LabelId) (superType : Option ConceptId) (valueType : Option ValueType)
  /-- An instance of a type; an attribute if it has a value. -/
  | member (type : ConceptId) (value : Option Value)
  deriving Repr, DecidableEq

/-- An edge from a relation to a player. -/
structure RoleEdge where
  relation : ConceptId
  /-- The role that the player plays, if it is given. -/
  role : Option LabelId
  player : ConceptId
  deriving Repr, DecidableEq

/-- A graph and its indexes. -/
structure Store where
  labels : LabelTable
  concepts : Array Concept
  typesByLabel : SortedMap LabelId ConceptId
  /-- The instances of each type, without those of its subtypes. -/
  membersByType : SortedMap ConceptId (SortedSet ConceptId)
  attributesByValue : List ((ConceptId × Value) × ConceptId)
  attributesByOwner : SortedMap ConceptId (SortedSet ConceptId)
  ownersByAttribute : SortedMap ConceptId (SortedSet ConceptId)
  /-- The role edges in the order in which they were added. -/
  roleEdges : List RoleEdge
  /-- The numbers of the role edges of each relation. -/
  edgesByRelation : SortedMap ConceptId (List Nat)
  /-- The numbers of the role edges to each player. -/
  edgesByPlayer : SortedMap ConceptId (List Nat)

namespace Store

def empty : Store := ⟨.empty, #[], .empty, .empty, [], .empty, .empty, [], .empty, .empty⟩

instance : Inhabited Store := ⟨empty⟩

def size (s : Store) : Nat := s.concepts.size

def concept? (s : Store) (id : ConceptId) : Option Concept := s.concepts[id.number]?

def label? (s : Store) (id : ConceptId) : Option Label :=
  match s.concept? id with
  | some (.type label _ _) => s.labels.label? label
  | _ => none

def superType? (s : Store) (id : ConceptId) : Option ConceptId :=
  match s.concept? id with
  | some (.type _ superType _) => superType
  | _ => none

def valueType? (s : Store) (id : ConceptId) : Option ValueType :=
  match s.concept? id with
  | some (.type _ _ valueType) => valueType
  | _ => none

def type? (s : Store) (id : ConceptId) : Option ConceptId :=
  match s.concept? id with
  | some (.member type _) => some type
  | _ => none

def value? (s : Store) (id : ConceptId) : Option Value :=
  match s.concept? id with
  | some (.member _ value) => value
  | _ => none

def typeWithLabel? (s : Store) (l : Label) : Option ConceptId := do
  s.typesByLabel.get? (← s.labels.idOf? l)

/-- The instances of a type, without those of its subtypes. -/
def members (s : Store) (type : ConceptId) : SortedSet ConceptId :=
  (s.membersByType.get? type).getD .empty

def attributes (s : Store) (owner : ConceptId) : SortedSet ConceptId :=
  (s.attributesByOwner.get? owner).getD .empty

def owners (s : Store) (owned : ConceptId) : SortedSet ConceptId :=
  (s.ownersByAttribute.get? owned).getD .empty

/-- The numbers under which the index of relations has role edges of a relation. -/
def numbersFrom (s : Store) (relation : ConceptId) : List Nat :=
  (s.edgesByRelation.get? relation).getD []

/-- The numbers under which the index of players has role edges to a player. -/
def numbersTo (s : Store) (player : ConceptId) : List Nat :=
  (s.edgesByPlayer.get? player).getD []

def edgesFrom (s : Store) (relation : ConceptId) : List RoleEdge :=
  (s.numbersFrom relation).filterMap (s.roleEdges[·]?)

def edgesTo (s : Store) (player : ConceptId) : List RoleEdge :=
  (s.numbersTo player).filterMap (s.roleEdges[·]?)

/-- The players of a relation with their roles, in the order in which they were added. -/
def players (s : Store) (relation : ConceptId) : List (Option Label × ConceptId) :=
  (s.edgesFrom relation).map fun edge => (edge.role.bind s.labels.label?, edge.player)

def relations (s : Store) (player : ConceptId) : SortedSet ConceptId :=
  .ofList ((s.edgesTo player).map (·.relation))

end Store

end GraphQuery
