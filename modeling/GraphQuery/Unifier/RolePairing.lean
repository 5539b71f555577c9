import GraphQuery.Collection.Picks
import GraphQuery.Statement.Basic

/-!
# Role pairings

The players of two relations are paired by matching each player of the parent with another player of
the child, one whose role it may have. The pairings come in lexicographic order of the places of the
child's players.
-/

namespace GraphQuery

/-- How strictly two atoms are unified. -/
inductive Strictness where
  /-- The atoms have to be renamings of each other. -/
  | exact
  /-- The child is the head of a rule: labels and constants have to agree only where both atoms have
  them, and the child may have players that the parent lacks. -/
  | rule
  deriving Repr, DecidableEq

/-- Labels that agree where both are given. -/
def labelsCompatible : Option Label → Option Label → Bool
  | some a, some b => a = b
  | _, _ => true

namespace RolePlayer

/-- Whether a player of the child can be matched with one of the parent. -/
def matchable (strictness : Strictness) (child parent : RolePlayer) : Bool :=
  match strictness with
  | .exact => child.role = parent.role
  | .rule => labelsCompatible child.role parent.role

/-- Every way of matching each of the parents with another of the children. -/
def assignments (strictness : Strictness) (children : List RolePlayer) :
    List RolePlayer → List (List (Variable × Variable))
  | [] => [[]]
  | parent :: parents =>
    (picks children).flatMap fun pick =>
      if pick.1.matchable strictness parent then
        (assignments strictness pick.2 parents).map ((pick.1.player, parent.player) :: ·)
      else []

/-- Whether there are enough children for the parents; for an exact pairing, just enough. -/
def sizesFit (strictness : Strictness) (children parents : List RolePlayer) : Bool :=
  match strictness with
  | .exact => parents.length = children.length
  | .rule => parents.length ≤ children.length

/-- Every way of pairing the players of two relations; an exact one leaves no player out. -/
def pairings (strictness : Strictness) (children parents : List RolePlayer) :
    List (List (Variable × Variable)) :=
  if sizesFit strictness children parents then assignments strictness children parents else []

end RolePlayer

end GraphQuery
