import GraphQuery.Insert.Draft
import GraphQuery.Insert.Plan
import GraphQuery.Term.Answer

/-!
# Carrying out inserts

The writers of a plan are applied in its order to the concepts of an answer. Those that say
something about a variable add to its draft; the first that needs the concept of a variable has it
made from the draft. The order of the plan sees to it that the draft is complete by then.
-/

namespace GraphQuery

/-- Something that an insert does. -/
inductive ExecutionEvent where
  | starts (w : Writer)
  | ends (w : Writer)
  /-- The concept of a variable is made from its draft. -/
  | makes (v : Variable)

/-- How far an insert has come. -/
structure Execution where
  store : Store
  /-- The concepts of the answer and those made so far. -/
  concepts : Answer
  drafts : SortedMap Variable Draft
  /-- What has been done, in that order. -/
  trace : Array ExecutionEvent

/-- A step of an insert. What it has written before it fails stays written. -/
abbrev Execute := ExceptT WriteError (StateM Execution)

namespace Execution

def record (event : ExecutionEvent) : Execute PUnit :=
  modify fun x => { x with trace := x.trace.push event }

/-- Writes to the store of the insert. -/
def write {α : Type} (operation : WriteM α) : Execute α := fun x =>
  let (result, store) := operation.run.run x.store
  (result, { x with store })

/-- The concept of a variable, made from its draft where there is none. -/
def concept (v : Variable) : Execute ConceptId := do
  let x ← get
  match x.concepts.get? v with
  | some id => return id
  | none =>
    match x.drafts.get? v with
    | some draft =>
      record (.makes v)
      let id ← write (draft.build v)
      modify fun x => { x with concepts := x.concepts.insert v id }
      return id
    | none => throw (.unboundRequirement v)

def contribute (v : Variable) (more : Draft → Draft) : Execute PUnit :=
  modify fun x => { x with drafts := x.drafts.update v {} more }

def apply (w : Writer) : Execute PUnit := do
  match w.action with
  | .isa type =>
    let type ← concept type
    contribute w.var ({ · with isa := some type })
  | .sub superType =>
    let superType ← concept superType
    contribute w.var ({ · with superType := some superType })
  | .label label => contribute w.var ({ · with label := some label })
  | .id id => contribute w.var ({ · with id := some id })
  | .dataType type => contribute w.var ({ · with valueType := some type })
  | .value value => contribute w.var ({ · with value := some value })
  | .has owned =>
    let owner ← concept w.var
    let owned ← concept owned
    write (.ofStore (Store.addHas owner owned))
  | .rolePlayers players =>
    let relation ← concept w.var
    players.forM fun rp => do
      let player ← concept rp.player
      write (.ofStore (Store.addRolePlayer relation rp.role player))

def step (w : Writer) : Execute PUnit := do
  record (.starts w)
  apply w
  record (.ends w)

/-- The variables with a draft and no concept. -/
def pending (x : Execution) : List Variable := x.drafts.keys.filter (!x.concepts.contains ·)

/-- Makes the concepts that no writer needed. -/
def finish : Execute PUnit := do
  (← get).pending.forM fun v => discard (concept v)

end Execution

/-- Whether all that a writer helps to produce is there beforehand. -/
def Writer.isSettled (w : Writer) (given : Answer) : Bool :=
  !w.produced.isEmpty && w.produced.toList.all (SortedMap.contains given ·)

namespace InsertPlan

/-- The writers that are applied when an answer is given: not those that say something about what is
there already. -/
def applied (plan : InsertPlan) (given : Answer) : List Writer :=
  plan.ordered.filter (!·.isSettled given)

/-- Applies the writers and makes all concepts; the answer has to bind what the plan takes to be
bound. -/
def steps (plan : InsertPlan) (given : Answer) : Execute Answer := do
  if let some v := plan.bound.toList.find? (!SortedMap.contains given ·) then
    throw (.unboundRequirement v)
  (plan.applied given).forM Execution.step
  Execution.finish
  return (← get).concepts

/-- How far a plan comes from a store, and the concepts or what is wrong with it. -/
def run (plan : InsertPlan) (given : Answer) (store : Store) :
    Except WriteError Answer × Execution :=
  (plan.steps given).run.run ⟨store, given, .empty, #[]⟩

/-- Carries out a plan. The result binds all variables of the answer and of the plan. -/
def execute (plan : InsertPlan) (given : Answer) : WriteM Answer := fun store =>
  let (result, x) := plan.run given store
  (result, x.store)

/-- What is done when a plan is carried out. -/
def trace (plan : InsertPlan) (given : Answer) (store : Store) : List ExecutionEvent :=
  (plan.run given store).2.trace.toList

end InsertPlan

end GraphQuery
