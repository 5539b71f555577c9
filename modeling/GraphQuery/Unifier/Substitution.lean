import GraphQuery.Collection.SortedSet
import GraphQuery.Term.Answer

/-!
# Substitutions

A substitution is a finite set of pairs of variables, each of which sends one to another. A variable
may be sent to several, and several to one; a variable without a pair stays what it is.
-/

namespace GraphQuery

/-- Pairs of variables are ordered by the first and then by the second. -/
instance : Ord (Variable × Variable) := lexOrd

instance : Std.TransOrd (Variable × Variable) :=
  inferInstanceAs (Std.TransCmp (compareLex (compareOn Prod.fst) (compareOn Prod.snd)))

instance : Std.LawfulEqOrd (Variable × Variable) where
  eq_of_compare {a b} h := by
    have h' : compareLex (compareOn Prod.fst) (compareOn Prod.snd) a b = .eq := h
    simp only [compareLex_eq_eq, compareOn] at h'
    exact Prod.ext (Std.LawfulEqOrd.eq_of_compare h'.1) (Std.LawfulEqOrd.eq_of_compare h'.2)

/-- A finite set of pairs of variables. -/
structure Substitution where
  /-- The pairs, each from a variable to one that it is sent to. -/
  pairs : SortedSet (Variable × Variable)
  deriving DecidableEq

namespace Substitution

def ofPairs (pairs : List (Variable × Variable)) : Substitution := ⟨.ofList pairs⟩

/-- The substitution that leaves every variable as it is. -/
def identity : Substitution := ⟨.empty⟩

def size (s : Substitution) : Nat := s.pairs.size

/-- The variables that are sent somewhere, in ascending order. -/
def keys (s : Substitution) : List Variable := (s.pairs.toList.map (·.1)).eraseDups

/-- The variables that something is sent to, in ascending order. -/
def values (s : Substitution) : List Variable :=
  (SortedSet.ofList (s.pairs.toList.map (·.2))).toList

/-- The variables that `v` is sent to, in ascending order. -/
def targets (s : Substitution) (v : Variable) : List Variable :=
  (s.pairs.toList.filter (·.1 = v)).map (·.2)

/-- What becomes of a variable: all that it is sent to, or itself. -/
def apply (s : Substitution) (v : Variable) : List Variable :=
  match s.targets v with
  | [] => [v]
  | targets => targets

def merge (s t : Substitution) : Substitution := ⟨s.pairs.union t.pairs⟩

def inverse (s : Substitution) : Substitution := ofPairs (s.pairs.toList.map Prod.swap)

def containsAll (s t : Substitution) : Bool := t.pairs.toList.all fun pair => pair ∈ s.pairs

/-- Whether no variable is sent to two and no two to the same. -/
def isBijective (s : Substitution) : Bool :=
  s.keys.all (fun v => (s.targets v).length = 1) && s.values.length = s.keys.length

/-- The answer with its variables replaced by what becomes of them, unless two bindings with
different concepts fall on one variable. -/
def translate (s : Substitution) (answer : Answer) : Option Answer :=
  answer.toList.foldlM
    (fun translated binding =>
      (s.apply binding.1).foldlM (fun translated v => translated.bind? v binding.2) translated)
    .empty

/-- A pair in front of groups of pairs, as part of the first group if that is of its variable. -/
def group (pair : Variable × Variable) :
    List (Variable × List Variable) → List (Variable × List Variable)
  | [] => [(pair.1, [pair.2])]
  | g :: gs => if g.1 = pair.1 then (g.1, pair.2 :: g.2) :: gs else (pair.1, [pair.2]) :: g :: gs

/-- The pairs grouped by the variable that is sent, in ascending order. -/
def grouped (s : Substitution) : List (Variable × List Variable) :=
  s.pairs.toList.foldr group []

/-- Substitutions are ordered by their groups: the first group that differs decides, by the variable
that is sent and then by those that it is sent to. -/
instance : Ord Substitution :=
  letI : Ord (Variable × List Variable) := lexOrd
  ⟨compareOn grouped⟩

instance : Std.TransOrd Substitution :=
  letI : Ord (Variable × List Variable) := lexOrd
  letI : Std.TransOrd (Variable × List Variable) :=
    inferInstanceAs (Std.TransCmp (compareLex (compareOn Prod.fst) (compareOn Prod.snd)))
  inferInstanceAs (Std.TransCmp (compareOn grouped))

def text (s : Substitution) : String :=
  "\x7b" ++
    String.intercalate ", " (s.pairs.toList.map fun pair => pair.1.text ++ " -> " ++ pair.2.text) ++
    "\x7d"

end Substitution

end GraphQuery
