import GraphQuery.Collection.SortedSet

/-!
# Schedules

Jobs that depend on each other are taken one after the other, each after all that it depends on. Of
the jobs that could be taken, the one that was listed first comes next, so the order depends on
nothing but the list. Jobs on a cycle, and those that depend on them, are never taken.

Jobs go by their places in the list. For each a count is kept of what it still waits for, and a job
whose count comes down to zero is ready.
-/

namespace GraphQuery

/-- For the job at each place, the places of the jobs on which it depends. -/
abbrev Dependencies := List (SortedSet Nat)

namespace Dependencies

def dependsOn (deps : Dependencies) (job other : Nat) : Bool :=
  match deps[job]? with
  | some others => other ∈ others
  | none => false

/-- Enters a job in the rows of all others on which it depends. -/
def enter (numbered : SortedSet Nat × Nat) (rows : Array (List Nat)) : Array (List Nat) :=
  numbered.1.toList.foldl (fun rows other => rows.modify other (numbered.2 :: ·)) rows

/-- For the job at each place, the places of the jobs that depend on it, in ascending order. -/
def dependants (deps : Dependencies) : Array (List Nat) :=
  deps.zipIdx.foldr enter (Array.replicate deps.length [])

end Dependencies

/-- How far a schedule has come. -/
structure Schedule where
  order : Array Nat
  /-- The jobs that wait for nothing and have not been taken. -/
  ready : SortedSet Nat
  /-- For the job at each place, the number of jobs for which it still waits. -/
  waiting : Array Nat

namespace Schedule

def start (deps : Dependencies) : Schedule :=
  let waiting := (deps.map SortedSet.size).toArray
  ⟨#[], .ofList ((List.range deps.length).filter (waiting[·]? = some 0)), waiting⟩

/-- A job has one job less to wait for. -/
def release : Schedule → Nat → Schedule
  | ⟨order, ready, waiting⟩, job =>
    let waiting := waiting.modify job (· - 1)
    ⟨order, if waiting[job]? = some 0 then ready.insert job else ready, waiting⟩

/-- The schedule after the next job has been taken, if one is ready. -/
def advance? (dependants : Array (List Nat)) : Schedule → Option Schedule
  | ⟨order, ready, waiting⟩ => do
    let (job, ready) ← ready.uncons?
    return (dependants.getD job []).foldl release ⟨order.push job, ready, waiting⟩

/-- The schedule after the next `n` jobs have been taken, or all that could be. -/
def run (dependants : Array (List Nat)) : Nat → Schedule → Schedule
  | 0, s => s
  | n + 1, s =>
    match s.advance? dependants with
    | some next => run dependants n next
    | none => s

/-- The order in which jobs are taken. No job is taken twice, so there are at most as many steps as
there are jobs. -/
def orderOf (deps : Dependencies) : List Nat :=
  (run deps.dependants deps.length (start deps)).order.toList

end Schedule

end GraphQuery
