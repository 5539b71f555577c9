import GraphQuery.Atom.Key

/-!
# Families of atoms

Atoms are grouped into classes of equivalent ones. Classes come in the order of their first members,
and members in the order in which they were added.
-/

namespace GraphQuery

/-- Atoms grouped by an equivalence. -/
structure AtomFamilies where
  equivalence : Equivalence
  classes : List (AtomKey × List Atom)

namespace AtomFamilies

def empty (equivalence : Equivalence) : AtomFamilies := ⟨equivalence, []⟩

/-- Adds a member to the class with the key, or a class with it where there is none. -/
def addTo (key : AtomKey) (a : Atom) : List (AtomKey × List Atom) → List (AtomKey × List Atom)
  | [] => [(key, [a])]
  | c :: cs => if c.1 = key then (c.1, c.2 ++ [a]) :: cs else c :: addTo key a cs

def insert (f : AtomFamilies) (a : Atom) : AtomFamilies :=
  { f with classes := addTo (f.equivalence.key a) a f.classes }

def insertMany (f : AtomFamilies) (as : List Atom) : AtomFamilies := as.foldl insert f

/-- The members of the class of an atom, none if no atom of it was added. -/
def family (f : AtomFamilies) (a : Atom) : List Atom :=
  ((f.classes.find? (·.1 = f.equivalence.key a)).map (·.2)).getD []

/-- Whether an atom would open a class of its own. -/
def isNew (f : AtomFamilies) (a : Atom) : Bool := !f.classes.any (·.1 = f.equivalence.key a)

def representatives (f : AtomFamilies) : List Atom := f.classes.filterMap (·.2.head?)

def size (f : AtomFamilies) : Nat := f.classes.length

end AtomFamilies

end GraphQuery
