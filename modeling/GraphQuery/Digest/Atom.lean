import GraphQuery.Digest.Statement
import GraphQuery.Query.Basic
import GraphQuery.Atom.Key
import GraphQuery.Unifier.Basic

/-!
# What atoms, unifiers and queries feed to a hasher

An atom feeds its own variables as they are, and only its source and its players by shape. Under an
equivalence an atom feeds its key, and a query the multiset of the keys of its atoms.
-/

namespace GraphQuery

instance : Feed QueryId := ⟨fun _ id => [id.number]⟩

instance : Feed Identity where
  feed
    | digest, .concept id => 0 :: feed digest id
    | digest, .type label => 1 :: feed digest label

/-- A type with its variable as it is. -/
def TypeRef.exactFeed (digest : Digest) (type : TypeRef) : List Nat :=
  feed digest type.var ++ feed digest type.label

instance : Feed AtomKind where
  feed
    | digest, .isa type direct => 0 :: (type.exactFeed digest ++ feed digest direct)
    | digest, .sub superType direct => 1 :: (superType.exactFeed digest ++ feed digest direct)
    | digest, .dataType type => 2 :: feed digest type
    | digest, .resource attributeType owned predicate =>
      3 :: (feed digest attributeType ++ feed digest owned ++ feed digest predicate)
    | digest, .relation typeVar typeLabel players =>
      4 :: (feed digest typeVar ++ feed digest typeLabel ++ feed digest players)
    | digest, .value predicate => 5 :: feed digest predicate
    | digest, .identity identity => 6 :: feed digest identity
    | digest, .neq other => 7 :: feed digest other

instance : Feed Atom :=
  ⟨fun digest a =>
    feed digest a.var ++ feed digest a.source ++ feed digest a.parent ++ feed digest a.kind⟩

instance : Feed TypeKey where
  feed
    | digest, .label label => 0 :: feed digest label
    | _, .position n => [1, n]

instance : Feed OperandKey where
  feed
    | digest, .constant value => 0 :: feed digest value
    | _, .anyConstant => [1]
    | _, .position n => [2, n]

instance : Feed PredicateKey :=
  ⟨fun digest key => feed digest key.comparator ++ feed digest key.operand⟩

instance : Feed IdentityKey where
  feed
    | digest, .concept id => 0 :: feed digest id
    | _, .anyConcept => [1]
    | digest, .type label => 2 :: feed digest label

instance : Feed AtomKey where
  feed
    | digest, .isa type direct => 0 :: (feed digest type ++ feed digest direct)
    | digest, .sub superType direct => 1 :: (feed digest superType ++ feed digest direct)
    | digest, .dataType type => 2 :: feed digest type
    | digest, .resource attributeType owned predicate =>
      3 :: (feed digest attributeType ++ owned :: feed digest predicate)
    | digest, .relation type signature => 4 :: (feed digest type ++ feed digest signature)
    | digest, .value predicate => 5 :: feed digest predicate
    | digest, .identity identity => 6 :: feed digest identity
    | _, .neq other => [7, other]

instance : Feed Equivalence := ⟨fun _ equivalence => [equivalence.ctorIdx]⟩

instance : Feed KeyedAtom := ⟨fun digest a => feed digest a.equivalence ++ feed digest a.key⟩

/-- What a query feeds under an equivalence. -/
def Query.equivalenceFeed (equivalence : Equivalence) (digest : Digest) (q : Query) : List Nat :=
  Feed.multiset (q.atoms.map fun a => Feed.digested digest (equivalence.key a))

instance : Feed Substitution := ⟨fun digest s => feed digest s.grouped⟩

instance : Feed Unifier where
  feed
    | _, .nonExistent => [0]
    | digest, .mapping s => 1 :: feed digest s

instance : Feed MultiUnifier := ⟨fun digest m => feed digest m.members.toList⟩

end GraphQuery
