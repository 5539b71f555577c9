import GraphQuery.Statement.Shape
import GraphQuery.Statement.Text

/-!
# Atoms

An atom is one property of a statement as a reasoner sees it: free of the statements that it carries
and with what belongs together folded into one, a value predicate into the ownership of its
attribute and the type of a relation into its players. It remembers the query that it belongs to and
the statement that it comes from.
-/

namespace GraphQuery

structure QueryId where
  number : Nat
  deriving Repr, DecidableEq, Inhabited

def QueryId.text (id : QueryId) : String := "q" ++ toString id.number

/-- What an atom pins its variable to. -/
inductive Identity where
  | concept (id : ConceptId)
  | type (label : Label)
  deriving Repr, DecidableEq

def Identity.text : Identity → String
  | concept id => "id " ++ id.text
  | type label => "type " ++ label.text

/-- What an atom says about its variable. -/
inductive AtomKind where
  /-- It is an instance of the type or of a subtype; of the type itself if `direct`. -/
  | isa (type : TypeRef) (direct : Bool)
  /-- It is a subtype of the type; an immediate one if `direct`. -/
  | sub (superType : TypeRef) (direct : Bool)
  /-- It is an attribute type with values of this datatype. -/
  | dataType (type : ValueType)
  /-- It owns the attribute `owned` of the type, and the predicate, if any, admits its value. -/
  | resource (attributeType : Label) (owned : Variable) (predicate : Option ValuePredicate)
  /-- It is a relation with these players, and of the type if one is given. -/
  | relation (typeVar : Option Variable) (typeLabel : Option Label) (players : List RolePlayer)
  /-- The predicate admits its value. -/
  | value (predicate : ValuePredicate)
  /-- It is this very concept. -/
  | identity (identity : Identity)
  /-- It is another concept than `other`. -/
  | neq (other : Variable)

namespace AtomKind

def name : AtomKind → String
  | isa .. => "isa"
  | sub .. => "sub"
  | dataType _ => "datatype"
  | resource .. => "resource"
  | relation .. => "relation"
  | value _ => "value"
  | identity _ => "id"
  | neq _ => "neq"

/-- The variables in the order in which they are mentioned, as often as they are. -/
def mentions : AtomKind → List Variable
  | isa type _ => [type.var]
  | sub superType _ => [superType.var]
  | dataType _ | identity _ => []
  | resource _ owned predicate => owned :: (predicate.bind (·.operand.var?)).toList
  | relation typeVar _ players => typeVar.toList ++ players.map (·.player)
  | value predicate => predicate.operand.var?.toList
  | neq other => [other]

/-- Whether the atom only restricts a variable that other atoms bind. -/
def isPredicate : AtomKind → Bool
  | value _ | identity _ | neq _ => true
  | isa .. | sub .. | dataType _ | resource .. | relation .. => false

/-- What is said about a variable, in front of which it is written. -/
def text : AtomKind → String
  | isa type direct => isaWord direct ++ " " ++ type.text
  | sub superType direct => subWord direct ++ " " ++ superType.text
  | dataType type => "datatype " ++ type.text
  | resource attributeType owned predicate =>
    "has " ++ attributeType.text ++ " " ++ owned.text ++
      match predicate with
      | some predicate => " (" ++ predicate.text ++ ")"
      | none => ""
  | relation _ typeLabel players =>
    RolePlayer.listText players ++
      match typeLabel with
      | some label => " isa " ++ label.text
      | none => ""
  | value predicate => predicate.text
  | identity i => i.text
  | neq other => "!= " ++ other.text

/-- Kinds are equal when they are the same but for the generated variables among the players. -/
def alike : AtomKind → AtomKind → Bool
  | isa a directA, isa b directB => a.var = b.var && a.label = b.label && directA = directB
  | sub a directA, sub b directB => a.var = b.var && a.label = b.label && directA = directB
  | dataType a, dataType b => a = b
  | resource typeA a predicateA, resource typeB b predicateB =>
    typeA = typeB && a = b && predicateA = predicateB
  | relation varA labelA as, relation varB labelB bs => varA = varB && labelA = labelB && as == bs
  | value a, value b => a = b
  | identity a, identity b => a = b
  | neq a, neq b => a = b
  | _, _ => false

instance : BEq AtomKind := ⟨alike⟩

end AtomKind

/-- One thing that a query asks of a variable. -/
structure Atom where
  var : Variable
  source : Statement
  parent : QueryId
  kind : AtomKind

namespace Atom

/-- The variable of the atom and those that it mentions, each once, in the order of mention. -/
def vars (a : Atom) : List Variable := (a.var :: a.kind.mentions).eraseDups

def copy (a : Atom) (parent : QueryId) : Atom := { a with parent }

def text (a : Atom) : String := a.var.text ++ " " ++ a.kind.text

/-- Atoms are equal when they agree in variable, query and kind and come from equal statements. -/
instance : BEq Atom :=
  ⟨fun a b => a.var = b.var && a.source == b.source && a.parent = b.parent && a.kind == b.kind⟩

end Atom

end GraphQuery
