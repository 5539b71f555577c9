import GraphQuery.Statement.Basic

/-!
# Units

A statement falls apart into units that can be denied one by one. Every property is a unit of its
own, except that a relation and its type stay together: `(a: $x, b: $y) isa marriage` is one unit.
-/

namespace GraphQuery

namespace Property

/-- The units of the properties of a relation: its first players take the pending type with them,
and no type is a unit of its own. -/
def relationUnits (pending : Option Property) : List Property → List (List Property)
  | [] => []
  | isa _ _ :: ps => relationUnits pending ps
  | relation players :: ps => (relation players :: pending.toList) :: relationUnits none ps
  | p :: ps => [p] :: relationUnits pending ps

end Property

/-- The units of a statement, each with its variable and polarity. -/
def Statement.units (s : Statement) : List Statement :=
  let parts :=
    if s.properties.length ≤ 1 then [s.properties]
    else if s.hasKind .relation then
      Property.relationUnits (s.property? .isa) s.properties
    else s.properties.map ([·])
  parts.map fun properties => { s with properties }

end GraphQuery
