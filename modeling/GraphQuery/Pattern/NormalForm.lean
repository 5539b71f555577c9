import GraphQuery.Pattern.Basic
import GraphQuery.Collection.Distinct
import GraphQuery.Statement.Units

/-!
# Disjunctive normal form

A pattern is brought into the form of a disjunction of conjunctions of statements. Negation moves
inwards until it meets a statement: a denied conjunction is the disjunction of its denied parts, a
denied disjunction the conjunction of them, and a denied statement the disjunction of its denied
units. The conjunctions of a product come in lexicographic order of their parts.

The number of conjunctions is bounded beforehand, since a product of disjunctions grows fast.
-/

namespace GraphQuery

/-- Statements that hold together. -/
abbrev Conjunction := Distinct Statement

/-- Conjunctions of which at least one holds. -/
abbrev NormalForm := Distinct Conjunction

namespace Conjunction

def positive (c : Conjunction) : List Statement := c.toList.filter (!·.isNegative)

def negative (c : Conjunction) : List Statement := c.toList.filter (·.isNegative)

def text (c : Conjunction) : String :=
  "\x7b" ++ String.join (c.toList.map (" " ++ ·.text)) ++ " \x7d"

end Conjunction

def NormalForm.text (f : NormalForm) : String :=
  String.intercalate " or " (f.toList.map Conjunction.text)

/-- The conjunctions of an asserted or denied statement: its denied units if it turns out negative,
and the asserted statement otherwise. -/
def Statement.expand (s : Statement) (denied : Bool) : List (List Statement) :=
  if denied != s.isNegative then (s.withPolarity .negative).units.map ([·])
  else [[s.withPolarity .positive]]

namespace Pattern

/-- Every front followed by every back, the back varying fastest. -/
def append (fronts backs : List (List Statement)) : List (List Statement) :=
  fronts.flatMap fun front => backs.map (front ++ ·)

mutual

/-- The conjunctions of an asserted or denied pattern. -/
def expand : Pattern → Bool → List (List Statement)
  | statement s, denied => s.expand denied
  | negation part, denied => part.expand !denied
  | conjunction parts, denied =>
    if denied then alternatives parts denied else combinations [[]] parts denied
  | disjunction parts, denied =>
    if denied then combinations [[]] parts denied else alternatives parts denied
  termination_by structural p => p

/-- The conjunctions of all patterns of a list, one after the other. -/
def alternatives : List Pattern → Bool → List (List Statement)
  | [], _ => []
  | p :: ps, denied => p.expand denied ++ alternatives ps denied

/-- The conjunctions that start with one of the fronts and go on with one of each pattern. -/
def combinations (fronts : List (List Statement)) : List Pattern → Bool → List (List Statement)
  | [], _ => fronts
  | p :: ps, denied => combinations (append fronts (p.expand denied)) ps denied

end

def normalForm (p : Pattern) : NormalForm :=
  .ofList ((p.expand false).map .ofList)

end Pattern

/-- The largest number of conjunctions that is told from larger ones. -/
def countCap : Nat := UInt64.size - 1

def addCapped (a b : Nat) : Nat := min (a + b) countCap

def mulCapped (a b : Nat) : Nat := min (a * b) countCap

def Statement.expansionCount (s : Statement) (denied : Bool) : Nat :=
  if denied != s.isNegative then s.units.length else 1

namespace Pattern

mutual

/-- The number of conjunctions of an asserted or denied pattern, up to the cap. -/
def count : Pattern → Bool → Nat
  | statement s, denied => s.expansionCount denied
  | negation part, denied => part.count !denied
  | conjunction parts, denied =>
    if denied then countSum 0 parts denied else countProduct 1 parts denied
  | disjunction parts, denied =>
    if denied then countProduct 1 parts denied else countSum 0 parts denied
  termination_by structural p => p

/-- The number so far with the counts of all patterns of a list added to it. -/
def countSum (total : Nat) : List Pattern → Bool → Nat
  | [], _ => total
  | p :: ps, denied => countSum (addCapped total (p.count denied)) ps denied

/-- The number so far with the counts of all patterns of a list multiplied to it. -/
def countProduct (total : Nat) : List Pattern → Bool → Nat
  | [], _ => total
  | p :: ps, denied => countProduct (mulCapped total (p.count denied)) ps denied

end

/-- The number of conjunctions of the normal form before equal ones collapse, up to the cap. -/
def bound (p : Pattern) : Nat := p.count false

end Pattern

end GraphQuery
