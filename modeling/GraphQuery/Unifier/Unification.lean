import GraphQuery.Atom.Key
import GraphQuery.Unifier.Basic
import GraphQuery.Unifier.RolePairing

/-!
# Unification of atoms

A child is unified with a parent of the same kind by sending its variables to the parent's in the
same places, provided that their constants and labels do not clash.
-/

namespace GraphQuery

/-- Predicates that are equal where both compare with constants. -/
def predicatesCompatible : Option ValuePredicate → Option ValuePredicate → Bool
  | some a, some b => !(a.operand.constant?.isSome && b.operand.constant?.isSome) || a = b
  | _, _ => true

/-- The variables that two predicates compare with, if both do. -/
def operandPair? (child parent : Option ValuePredicate) : Option (Variable × Variable) := do
  return (← (← child).operand.var?, ← (← parent).operand.var?)

namespace AtomKind

/-- Whether two kinds are the same and their constants and labels do not clash. -/
def compatible : AtomKind → AtomKind → Bool
  | isa a _, isa b _ => labelsCompatible a.label b.label
  | sub a _, sub b _ => labelsCompatible a.label b.label
  | dataType a, dataType b => a = b
  | resource typeA _ a, resource typeB _ b => typeA = typeB && predicatesCompatible a b
  | relation _ a _, relation _ b _ => labelsCompatible a b
  | value a, value b => predicatesCompatible (some a) (some b)
  | identity a, identity b => a = b
  | neq _, neq _ => true
  | _, _ => false

/-- The ways in which the variables of two kinds correspond. -/
def correspondences (strictness : Strictness) :
    AtomKind → AtomKind → List (List (Variable × Variable))
  | isa a _, isa b _ => [[(a.var, b.var)]]
  | sub a _, sub b _ => [[(a.var, b.var)]]
  | resource _ a predicateA, resource _ b predicateB =>
    [(a, b) :: (operandPair? predicateA predicateB).toList]
  | relation a _ as, relation b _ bs =>
    let types := (do return (← a, ← b) : Option (Variable × Variable)).toList
    (RolePlayer.pairings strictness as bs).map (types ++ ·)
  | value a, value b => [(operandPair? (some a) (some b)).toList]
  | neq a, neq b => [[(a, b)]]
  | _, _ => [[]]

end AtomKind

namespace Atom

/-- The substitutions that send the variables of the child to those of the parent in the same
places. -/
def candidates (child parent : Atom) (strictness : Strictness) : List Substitution :=
  (child.kind.correspondences strictness parent.kind).map fun pairs =>
    .ofPairs ((child.var, parent.var) :: pairs)

/-- The substitutions that turn the child into the parent; exact ones are one-to-one. -/
def unify (child parent : Atom) (strictness : Strictness) : MultiUnifier :=
  if !child.kind.compatible parent.kind then .nonExistent
  else
    match strictness with
    | .rule => .ofSubstitutions (child.candidates parent .rule)
    | .exact =>
      if child.equivalent .alpha parent then
        .ofSubstitutions ((child.candidates parent .exact).filter (·.isBijective))
      else .nonExistent

end Atom

end GraphQuery
