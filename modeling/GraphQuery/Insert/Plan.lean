import GraphQuery.Insert.Error
import GraphQuery.Insert.Producers
import GraphQuery.Insert.Schedule

/-!
# Insert plans

A plan puts the writers of an insert in order: a writer comes after all that help to produce what it
requires, unless that is bound beforehand. Whatever can be wrong with the writers is found before
anything is written.
-/

namespace GraphQuery

/-- Writers and the order in which they are applied. -/
structure InsertPlan where
  writers : List Writer
  /-- Their places in the list, in the order in which they are applied. -/
  order : List Nat
  bound : SortedSet Variable

namespace Producers

/-- Whether a variable is bound beforehand or gets a concept from a writer. -/
def supply (index : Producers) (bound : SortedSet Variable) (v : Variable) : Bool :=
  v ∈ bound || !(index.places v).isEmpty

/-- A writer depends on all producers of what it requires and is not bound beforehand. -/
def dependencies (index : Producers) (bound : SortedSet Variable) (writers : List Writer) :
    Dependencies :=
  writers.map fun w => .ofList ((w.required.toList.filter (· ∉ bound)).flatMap index.places)

end Producers

namespace InsertPlan

/-- The variables that writers left out of an order would help to produce. -/
def unscheduled (writers : List Writer) (order : List Nat) : SortedSet Variable :=
  .ofList ((writers.zipIdx.filter (·.2 ∉ order)).flatMap (·.1.produced.toList))

/-- The plan for writers whose statements are about `subjects`: each of these and each variable that
a writer requires has to be supplied, and no writer may wait for itself. -/
def ofWriters (writers : List Writer) (subjects : List Variable) (bound : SortedSet Variable) :
    Except WriteError InsertPlan := do
  let producers := Producers.ofWriters writers
  let missing (v : Variable) := !producers.supply bound v
  if let some v := subjects.find? missing then throw (.nothingToInsert v)
  if let some v := (writers.flatMap (·.required.toList)).find? missing then
    throw (.unboundRequirement v)
  let order := Schedule.orderOf (producers.dependencies bound writers)
  if order.length < writers.length then
    throw (.dependencyCycle (unscheduled writers order).toList)
  return ⟨writers, order, bound⟩

def ordered (plan : InsertPlan) : List Writer :=
  let writers := plan.writers.toArray
  plan.order.filterMap (writers[·]?)

def text (plan : InsertPlan) : String :=
  String.join (plan.ordered.zipIdx.map fun numbered =>
    toString numbered.2 ++ ": " ++ numbered.1.text ++ "\n")

end InsertPlan

end GraphQuery
