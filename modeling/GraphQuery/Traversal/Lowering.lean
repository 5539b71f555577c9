import GraphQuery.Traversal.Fragment

/-!
# The fragments of statements

Every property is one constraint or several. What a property leaves unnamed gets a fresh variable:
the very type of an instance, which lies below the type that is asked for, and the edge to each
player of a relation.
-/

namespace GraphQuery

/-- The constraint for a player of the relation `var`. -/
def RolePlayer.fragment (var : Variable) (rp : RolePlayer) : Fresh FragmentSet := do
  let edge ← Supply.fresh
  return .bothWays .relation (.role var edge rp.role rp.player)

/-- The constraints of a property of `var`. -/
def Property.fragments (p : Property) (var : Variable) : Fresh (List FragmentSet) :=
  match p with
  | isa type true => return [.bothWays .isa (.isa var type.var)]
  | isa type false => do
    let own ← Supply.fresh
    return [.bothWays .isa (.isa var own), .bothWays .isa (.sub own type.var false)]
  | sub superType direct => return [.bothWays .sub (.sub var superType.var direct)]
  | label l => return [⟨.label, [.label var l]⟩]
  | id concept => return [⟨.id, [.id var concept]⟩]
  | dataType type => return [⟨.dataType, [.dataType var type]⟩]
  | has _ owned => return [.bothWays .has (.has var owned.var)]
  | relation players => players.mapM (·.fragment var)
  | value predicate => return [⟨.value, [.value var predicate]⟩]
  | neq other => return [⟨.neq, [.neq var other, .neq other var]⟩]

namespace Statement

def ownFragments (s : Statement) : Fresh (List FragmentSet) :=
  return (← s.properties.mapM fun p => p.fragments s.var).flatten

/-- The constraints of a statement and of those that it carries. -/
def fragments (s : Statement) : Fresh (List FragmentSet) :=
  return (← s.withInner.mapM ownFragments).flatten

end Statement

def Statement.fragmentsOf (ss : List Statement) : Fresh (List FragmentSet) :=
  return (← ss.mapM fragments).flatten

end GraphQuery
