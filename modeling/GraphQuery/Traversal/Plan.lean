import GraphQuery.Collection.SortedSet
import GraphQuery.Traversal.Fragment

/-!
# Traversal plans

A plan is the order in which a traversal takes the constraints of a conjunction, each once. It stays
with what it has reached for as long as it can: of the constraints that share a variable with those
before them, and of all where none does, it takes the cheapest, and of equally cheap ones the first.
-/

namespace GraphQuery

/-- Constraints in the order in which they are taken. -/
structure TraversalPlan where
  sets : List FragmentSet
  deriving Repr, DecidableEq

namespace TraversalPlan

structure Candidate where
  set : FragmentSet
  /-- Whether it shares a variable with one that has been taken. -/
  connected : Bool

/-- The candidate after a constraint with the given variables has been taken. -/
def Candidate.reach (vars : List Variable) (c : Candidate) : Candidate :=
  { c with connected := c.connected || c.set.vars.any (vars.contains ·) }

/-- The constraints among which the next is chosen. -/
def choices (remaining : List Candidate) : List FragmentSet :=
  let connected := remaining.filter (·.connected)
  (if connected.isEmpty then remaining else connected).map (·.set)

/-- The cheaper of two constraints, the first if they cost the same. -/
def cheaper (s t : FragmentSet) : FragmentSet := if t.cost < s.cost then t else s

def cheapest? : List FragmentSet → Option FragmentSet
  | [] => none
  | s :: ss => some (ss.foldl cheaper s)

/-- The first `n` constraints in the order in which they are taken. -/
def order : Nat → List Candidate → List FragmentSet
  | 0, _ => []
  | n + 1, remaining =>
    match cheapest? (choices remaining) with
    | none => []
    | some s => s :: order n ((remaining.eraseP (·.set = s)).map (·.reach s.vars))

/-- The plan for the constraints of a list, in the order of the list unless `ordered` is set. -/
def ofSets (ordered : Bool) (sets : List FragmentSet) : TraversalPlan :=
  let distinct := sets.eraseDups
  ⟨if ordered then order distinct.length (distinct.map (⟨·, false⟩)) else distinct⟩

def vars (plan : TraversalPlan) : SortedSet Variable :=
  .ofList (plan.sets.flatMap (·.vars))

def text (plan : TraversalPlan) : String :=
  String.join ((plan.sets.zipIdx).map fun numbered =>
    toString numbered.2 ++ ": " ++ numbered.1.text ++ "\n")

end TraversalPlan

end GraphQuery
