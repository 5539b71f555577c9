import GraphQuery.Unifier.Substitution

/-!
# Unifiers

The outcome of unifying is a substitution, or that there is none. Where there are several ways to
unify, the outcome is the set of their substitutions, which is empty where there is none.
-/

namespace GraphQuery

/-- A substitution that unifies, or that none does. -/
inductive Unifier where
  | nonExistent
  | mapping (s : Substitution)
  deriving DecidableEq

namespace Unifier

/-- The unifier that leaves every variable as it is. -/
def trivial : Unifier := mapping .identity

def ofPairs (pairs : List (Variable × Variable)) : Unifier := mapping (.ofPairs pairs)

def substitution? : Unifier → Option Substitution
  | nonExistent => none
  | mapping s => some s

def isNonExistent (u : Unifier) : Bool := u.substitution?.isNone

def pairs (u : Unifier) : List (Variable × Variable) :=
  (u.substitution?.map (·.pairs.toList)).getD []

def size (u : Unifier) : Nat := u.pairs.length

/-- Whether the unifier exists and has no pairs. -/
def isEmpty (u : Unifier) : Bool := u = trivial

/-- The variables that are sent somewhere, in ascending order. -/
def keys (u : Unifier) : List Variable := (u.substitution?.map (·.keys)).getD []

/-- The variables that something is sent to, in ascending order. -/
def values (u : Unifier) : List Variable := (u.substitution?.map (·.values)).getD []

/-- The variables that `v` is sent to, if it is sent anywhere. -/
def targets? (u : Unifier) (v : Variable) : Option (List Variable) := do
  let targets := (← u.substitution?).targets v
  if targets.isEmpty then none else some targets

/-- The pairs of both, if both exist. -/
def merge : Unifier → Unifier → Unifier
  | mapping s, mapping t => mapping (s.merge t)
  | _, _ => nonExistent

def inverse : Unifier → Unifier
  | nonExistent => nonExistent
  | mapping s => mapping s.inverse

/-- Whether both exist and each pair of the second is one of the first, or neither exists. -/
def containsAll : Unifier → Unifier → Bool
  | nonExistent, nonExistent => true
  | mapping s, mapping t => s.containsAll t
  | _, _ => false

/-- What becomes of a variable; nothing if there is no substitution. -/
def apply : Unifier → Variable → List Variable
  | nonExistent, _ => []
  | mapping s, v => s.apply v

/-- The answer in the variables that its own become, if the unifier exists and no two bindings
clash. -/
def translate (u : Unifier) (answer : Answer) : Option Answer := do
  (← u.substitution?).translate answer

def isBijective (u : Unifier) : Bool := (u.substitution?.map (·.isBijective)).getD false

/-- That there is no unifier comes first, then the substitutions in their order. -/
instance : Ord Unifier where
  compare
    | nonExistent, nonExistent => .eq
    | nonExistent, mapping _ => .lt
    | mapping _, nonExistent => .gt
    | mapping s, mapping t => compare s t

def text : Unifier → String
  | nonExistent => "\x7b non-existent \x7d"
  | mapping s => s.text

end Unifier

/-- All substitutions that unify. -/
structure MultiUnifier where
  members : SortedSet Substitution
  deriving DecidableEq

namespace MultiUnifier

/-- The substitutions of a list, which are put in order before they are made a set. -/
def ofSubstitutions (ss : List Substitution) : MultiUnifier :=
  ⟨.ofList (ss.mergeSort fun s t => (compare s t).isLE)⟩

def ofList (us : List Unifier) : MultiUnifier := ofSubstitutions (us.filterMap (·.substitution?))

/-- The outcome of unifying what cannot be unified. -/
def nonExistent : MultiUnifier := ⟨.empty⟩

def single (u : Unifier) : MultiUnifier := ofList [u]

/-- The outcome with the unifier that leaves every variable as it is. -/
def trivial : MultiUnifier := single .trivial

def toList (m : MultiUnifier) : List Unifier := m.members.toList.map .mapping

def size (m : MultiUnifier) : Nat := m.members.size

def isEmpty (m : MultiUnifier) : Bool := m.members.isEmpty

def unique? (m : MultiUnifier) : Option Unifier :=
  match m.toList with
  | [u] => some u
  | _ => none

def inverse (m : MultiUnifier) : MultiUnifier :=
  ofSubstitutions (m.members.toList.map (·.inverse))

/-- Whether some member has all pairs of a unifier. -/
def containsSpecialisationOf (m : MultiUnifier) (u : Unifier) : Bool :=
  m.toList.any (·.containsAll u)

end MultiUnifier

end GraphQuery
