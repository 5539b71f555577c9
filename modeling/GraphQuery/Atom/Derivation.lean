import GraphQuery.Atom.Basic

/-!
# The atoms of statements

Every property of a statement, and of the statements that it carries, gives one atom. Only the type
of a relation does not, since the atom of the relation takes it in.
-/

namespace GraphQuery

namespace Property

/-- Whether a property of the statement gives an atom. -/
def givesAtom (p : Property) (s : Statement) : Bool :=
  match p with
  | isa _ _ => !s.hasKind .relation
  | _ => true

/-- What a property of the statement says, as an atom does. -/
def atomKind (p : Property) (s : Statement) : AtomKind :=
  match p with
  | isa type direct => .isa type direct
  | sub superType direct => .sub superType direct
  | label l => .identity (.type l)
  | id concept => .identity (.concept concept)
  | dataType type => .dataType type
  | has attributeType owned => .resource attributeType owned.var owned.predicate?
  | relation players =>
    let type := (s.property? .isa).bind isaType?
    .relation (type.map (·.var)) (type.bind (·.label)) players
  | value predicate => .value predicate
  | neq other => .neq other

/-- The properties that the atom of a property takes in. -/
def absorbed (p : Property) (s : Statement) : List Property :=
  match p with
  | relation _ => p :: (s.property? .isa).toList
  | _ => [p]

/-- The atom of a property of the statement, if it gives one. -/
def atom? (p : Property) (s : Statement) (parent : QueryId) : Option Atom :=
  if p.givesAtom s then
    some ⟨s.var, ⟨s.var, .positive, p.absorbed s⟩, parent, p.atomKind s⟩
  else none

end Property

/-- The atoms of a statement and of those that it carries. -/
def Statement.atoms (s : Statement) (parent : QueryId) : List Atom :=
  s.withInner.flatMap fun t => t.properties.filterMap fun p => p.atom? t parent

end GraphQuery
