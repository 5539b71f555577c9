import GraphQuery.Atom.Key
import GraphQuery.Query.Basic
import GraphQuery.Unifier.RolePairing

/-!
# Equivalence of queries

Two queries are equivalent when their atoms can be paired so that one renaming of variables, shared
by all pairs, turns the one query into the other. A search goes through the pairings and extends the
renaming pair by pair.
-/

namespace GraphQuery

/-- A one-to-one correspondence between some variables of two queries. -/
structure Renaming where
  pairs : List (Variable × Variable)

namespace Renaming

def empty : Renaming := ⟨[]⟩

/-- The renaming with one more pair, unless it contradicts the others. -/
def add? (r : Renaming) (pair : Variable × Variable) : Option Renaming :=
  if pair ∈ r.pairs then some r
  else if r.pairs.any fun p => p.1 = pair.1 || p.2 = pair.2 then none
  else some ⟨pair :: r.pairs⟩

/-- The renaming with all pairs of a list, unless one contradicts the others. -/
def addAll? (r : Renaming) (pairs : List (Variable × Variable)) : Option Renaming :=
  pairs.foldlM add? r

end Renaming

/-- The correspondences of variables under which two atoms are equivalent, none if they are not. -/
def Atom.correspondences (equivalence : Equivalence) (a b : Atom) :
    List (List (Variable × Variable)) :=
  if a.equivalent equivalence b then
    let numbered := a.slots.zip b.slots
    match a.kind, b.kind with
    | .relation _ _ as, .relation _ _ bs => (RolePlayer.pairings .exact as bs).map (numbered ++ ·)
    | _, _ => [numbered]
  else []

namespace Query

/-- Whether the atoms of two lists can be paired under an extension of the renaming. -/
def pairable (equivalence : Equivalence) : List Atom → List Atom → Renaming → Bool
  | [], _, _ => true
  | a :: as, targets, r =>
    (picks targets).any fun pick =>
      (a.correspondences equivalence pick.1).any fun pairs =>
        match r.addAll? pairs with
        | some extended => pairable equivalence as pick.2 extended
        | none => false

/-- Whether the atoms of two queries can be paired under one renaming. -/
def equivalent (equivalence : Equivalence) (q r : Query) : Bool :=
  q.atoms.length = r.atoms.length && pairable equivalence q.atoms r.atoms .empty

/-- The hash of a query under an equivalence: the hashes of the keys of its atoms in ascending
order, folded into one word. `hash` is the hash of one key. -/
def equivalenceHash (hash : AtomKey → UInt64) (equivalence : Equivalence) (q : Query) : UInt64 :=
  ((q.atoms.map fun a => hash (equivalence.key a)).mergeSort (· ≤ ·)).foldl
    (fun word h => word * 31 + h) 17

end Query

end GraphQuery
