import GraphQuery.Atom.Basic

/-!
# Equivalence of atoms

Two atoms are alpha-equivalent when one is the other with its variables renamed, and structurally
equivalent when constants may differ as well. Both are decided by comparing keys, in which each
variable is replaced by the position of its first occurrence. The players of a relation are not
numbered: a key lists the roles that each of them plays, in ascending order, so that it does not
depend on the order of the players.
-/

namespace GraphQuery

/-- A type within a key: its label, or the position of its variable where no label is given. -/
inductive TypeKey where
  | label (label : Label)
  | position (n : Nat)
  deriving Repr, DecidableEq

inductive OperandKey where
  | constant (value : Value)
  /-- A constant, whichever it is. -/
  | anyConstant
  | position (n : Nat)
  deriving Repr, DecidableEq

structure PredicateKey where
  comparator : Comparator
  operand : OperandKey
  deriving Repr, DecidableEq

inductive IdentityKey where
  | concept (id : ConceptId)
  /-- A concept, whichever it is. -/
  | anyConcept
  | type (label : Label)
  deriving Repr, DecidableEq

/-- An atom without the names of its variables; the variable that it is about has position zero. -/
inductive AtomKey where
  | isa (type : TypeKey) (direct : Bool)
  | sub (superType : TypeKey) (direct : Bool)
  | dataType (type : ValueType)
  | resource (attributeType : Label) (owned : Nat) (predicate : Option PredicateKey)
  /-- The signature lists for every player the roles that it plays. -/
  | relation (type : Option TypeKey) (signature : List (List (Option Label)))
  | value (predicate : PredicateKey)
  | identity (identity : IdentityKey)
  | neq (other : Nat)
  deriving Repr, DecidableEq

/-- The key with any constant in place of the one it has. -/
def OperandKey.withoutConstant : OperandKey → OperandKey
  | constant _ => anyConstant
  | key => key

/-- The key with any constant in place of the one it has. -/
def PredicateKey.withoutConstant (key : PredicateKey) : PredicateKey :=
  { key with operand := key.operand.withoutConstant }

/-- The key with any concept in place of the one it has; a label is no constant. -/
def IdentityKey.withoutConstant : IdentityKey → IdentityKey
  | concept _ => anyConcept
  | key => key

namespace AtomKey

def withoutConstants : AtomKey → AtomKey
  | resource attributeType owned predicate =>
    resource attributeType owned (predicate.map (·.withoutConstant))
  | value predicate => value predicate.withoutConstant
  | identity i => .identity i.withoutConstant
  | key => key

def kindName : AtomKey → String
  | isa .. => "isa"
  | sub .. => "sub"
  | dataType _ => "datatype"
  | resource .. => "resource"
  | relation .. => "relation"
  | value _ => "value"
  | identity _ => "id"
  | neq _ => "neq"

end AtomKey

/-- The roles that one player has, in ascending order. -/
def RolePlayer.rolesOf (players : List RolePlayer) (player : Variable) : List (Option Label) :=
  ((players.filter (·.player = player)).map (·.role)).mergeSort fun a b => (compare a b).isLE

/-- The roles of each player, in ascending order. -/
def RolePlayer.signature (players : List RolePlayer) : List (List (Option Label)) :=
  ((players.map (·.player)).eraseDups.map (rolesOf players)).mergeSort
    fun a b => (compare a b).isLE

namespace AtomKind

/-- The variables of an atom that its key numbers, in the order in which it does. -/
def numbered : AtomKind → List Variable
  | isa type _ => if type.label.isSome then [] else [type.var]
  | sub superType _ => if superType.label.isSome then [] else [superType.var]
  | dataType _ | identity _ => []
  | resource _ owned predicate => owned :: (predicate.bind (·.operand.var?)).toList
  | relation typeVar typeLabel _ => if typeLabel.isSome then [] else typeVar.toList
  | value predicate => predicate.operand.var?.toList
  | neq other => [other]

def withoutPredicate : AtomKind → AtomKind
  | resource attributeType owned _ => resource attributeType owned none
  | kind => kind

/-- The key of a type whose variable has the given position. -/
def typeKey (label : Option Label) (position : Nat) : TypeKey :=
  match label with
  | some label => .label label
  | none => .position position

/-- The key of an operand, given the positions of variables. -/
def operandKey (position : Variable → Nat) : Operand → OperandKey
  | .constant c => .constant c
  | .var v => .position (position v)

def predicateKey (position : Variable → Nat) (p : ValuePredicate) : PredicateKey :=
  ⟨p.comparator, operandKey position p.operand⟩

def identityKey : Identity → IdentityKey
  | .concept id => .concept id
  | .type label => .type label

/-- The key of an atom of this kind, given the positions of its variables. -/
def key (position : Variable → Nat) : AtomKind → AtomKey
  | isa type direct => .isa (typeKey type.label (position type.var)) direct
  | sub superType direct => .sub (typeKey superType.label (position superType.var)) direct
  | dataType type => .dataType type
  | resource attributeType owned predicate =>
    .resource attributeType (position owned) (predicate.map (predicateKey position))
  | relation typeVar typeLabel players =>
    .relation
      (match typeLabel with
        | some label => some (.label label)
        | none => typeVar.map fun v => .position (position v))
      (RolePlayer.signature players)
  | value predicate => .value (predicateKey position predicate)
  | identity i => .identity (identityKey i)
  | neq other => .neq (position other)

end AtomKind

namespace Atom

/-- The variables that the key numbers, by position. -/
def slots (a : Atom) : List Variable := (a.var :: a.kind.numbered).eraseDups

def alphaKey (a : Atom) : AtomKey := a.kind.key a.slots.idxOf

def structuralKey (a : Atom) : AtomKey := a.alphaKey.withoutConstants

def withoutPredicate (a : Atom) : Atom := { a with kind := a.kind.withoutPredicate }

end Atom

/-- Which atoms count as equivalent. -/
inductive Equivalence where
  /-- Those that differ in the names of variables alone. -/
  | alpha
  /-- Those that differ in the names of variables and in constants. -/
  | structural
  deriving Repr, DecidableEq

def Equivalence.key : Equivalence → Atom → AtomKey
  | alpha, a => a.alphaKey
  | structural, a => a.structuralKey

namespace Atom

def equivalent (equivalence : Equivalence) (a b : Atom) : Bool :=
  equivalence.key a = equivalence.key b

/-- Whether an atom is at least as general as another: equivalent to it, or a resource without
predicate that is equivalent to the other resource once its predicate is left out. -/
def subsumes (a b : Atom) : Bool :=
  a.equivalent .alpha b ||
    match a.kind, b.kind with
    | .resource _ _ none, .resource _ _ (some _) => a.equivalent .alpha b.withoutPredicate
    | _, _ => false

end Atom

/-- An atom that is compared with others by an equivalence. -/
structure KeyedAtom where
  equivalence : Equivalence
  atom : Atom

namespace KeyedAtom

def key (a : KeyedAtom) : AtomKey := a.equivalence.key a.atom

instance : BEq KeyedAtom := ⟨fun a b => a.equivalence = b.equivalence && a.key = b.key⟩

end KeyedAtom

end GraphQuery
