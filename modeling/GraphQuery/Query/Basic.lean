import GraphQuery.Atom.Derivation
import GraphQuery.Pattern.NormalForm

/-!
# Queries

A query is a conjunction of statements with the atoms that follow from it.
-/

namespace GraphQuery

/-- A conjunction and its atoms. -/
structure Query where
  /-- The number of the query. -/
  id : QueryId
  conjunction : Conjunction
  /-- The atoms, all of them atoms of this query. -/
  atoms : List Atom

namespace Query

/-- The query with the given atoms, which become atoms of this query. -/
def ofAtoms (id : QueryId) (conjunction : Conjunction) (atoms : List Atom) : Query :=
  ⟨id, conjunction, atoms.map (·.copy id)⟩

/-- The query of a conjunction, with the atoms of what it asserts. -/
def ofConjunction (id : QueryId) (conjunction : Conjunction) : Query :=
  ofAtoms id conjunction (conjunction.positive.flatMap (·.atoms id))

def copy (q : Query) (id : QueryId) : Query := ofAtoms id q.conjunction q.atoms

/-- The variables of the atoms, each once, in the order of first mention. -/
def vars (q : Query) : List Variable := (q.atoms.flatMap (·.vars)).eraseDups

def namedVars (q : Query) : List Variable := q.vars.filter (·.isNamed)

/-- The atoms that bind variables. -/
def selectable (q : Query) : List Atom := q.atoms.filter (!·.kind.isPredicate)

/-- Queries are equal when they agree in number, conjunction and atoms. -/
instance : BEq Query :=
  ⟨fun q r => q.id = r.id && q.conjunction == r.conjunction && q.atoms == r.atoms⟩

def text (q : Query) : String :=
  q.id.text ++ " \x7b" ++ String.join (q.atoms.map fun a => " " ++ a.text ++ ";") ++ " \x7d"

end Query

end GraphQuery
