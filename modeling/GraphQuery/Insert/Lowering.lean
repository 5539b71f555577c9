import GraphQuery.Insert.Writer

/-!
# The writers of statements

Every property has one writer, but for those that cannot be written: that a variable stands for
another concept than a second one, and a predicate that does not fix the value.
-/

namespace GraphQuery

def Property.writer? (p : Property) (var : Variable) : Option Writer :=
  match p with
  | isa type _ => some (.producing var .isa [type.var] (.isa type.var))
  | sub superType _ => some (.producing var .sub [superType.var] (.sub superType.var))
  | label l => some (.producing var .label [] (.label l))
  | id concept => some (.producing var .id [] (.id concept))
  | dataType type => some (.producing var .dataType [] (.dataType type))
  | has _ owned => some (.linking var .has [var, owned.var] (.has owned.var))
  | relation players =>
    some (.linking var .relation (var :: players.map (·.player)) (.rolePlayers players))
  | value predicate => predicate.fixedValue?.map fun v => .producing var .value [] (.value v)
  | neq _ => none

namespace Statement

def ownWriters (s : Statement) : List Writer := s.properties.filterMap (·.writer? s.var)

/-- The writers of a statement and of those that it carries. -/
def writers (s : Statement) : List Writer := s.withInner.flatMap ownWriters

end Statement

end GraphQuery
