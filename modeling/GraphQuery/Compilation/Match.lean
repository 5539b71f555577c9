import GraphQuery.Compilation.Settings
import GraphQuery.Query.Basic
import GraphQuery.Traversal.Lowering
import GraphQuery.Traversal.Plan

/-!
# Compiling matches

A pattern that is to be matched is brought into normal form, and each of its conjunctions gets a
plan for what it asserts and one for each of its denials: an answer of the first counts when none of
the others can be carried out from it. Variables that the compiler adds are fresh to the pattern.
-/

namespace GraphQuery

/-- A compiler: its settings, the variables that it has not yet given away and the number of its
next query. -/
structure Compiler where
  settings : Settings
  supply : Supply
  nextQuery : QueryId
  deriving Repr

/-- A conjunction that can be matched. -/
structure CompiledConjunction where
  conjunction : Conjunction
  /-- The plan for the asserted statements. -/
  plan : TraversalPlan
  /-- The plan for each denied statement, as if it were asserted. -/
  denials : List TraversalPlan
  query : Query

/-- The variables that a pattern mentions at any depth. -/
def Pattern.vars (p : Pattern) : List Variable :=
  (p.statements.flatMap (·.withInner)).flatMap (·.vars)

namespace Compiler

def start (settings : Settings) : Compiler := ⟨settings, .full, ⟨0⟩⟩

/-- A computation that takes variables and query numbers from a compiler. -/
abbrev Compile := StateM Compiler

/-- Takes fresh variables from the supply of the compiler. -/
def withSupply {α : Type} (take : Fresh α) : Compile α := fun c =>
  let (a, supply) := take.run c.supply
  (a, { c with supply })

/-- Sees to it that fresh variables are fresh to the pattern too. -/
def reserve (p : Pattern) : Compile PUnit := fun c =>
  (⟨⟩, { c with supply := c.supply.reserve p.vars })

/-- The query of a conjunction, under the next number. -/
def query (conjunction : Conjunction) : Compile Query := fun c =>
  (.ofConjunction c.nextQuery conjunction, { c with nextQuery := ⟨c.nextQuery.number + 1⟩ })

def planOf (statements : List Statement) : Compile TraversalPlan := do
  let sets ← withSupply (Statement.fragmentsOf statements)
  return .ofSets (← get).settings.orderFragments sets

def compileConjunction (c : Conjunction) : Compile CompiledConjunction := do
  let plan ← planOf c.positive
  let denials ← c.negative.mapM fun denial => planOf [denial.negated]
  return ⟨c, plan, denials, ← query c⟩

/-- Compiles each conjunction of a pattern, if the pattern can be run as a query. -/
def compileMatch (p : Pattern) : Compile (Except PatternError (List CompiledConjunction)) := do
  reserve p
  match p.validate (← get).settings.maxDisjuncts with
  | .error e => return .error e
  | .ok executable => return .ok (← executable.form.toList.mapM compileConjunction)

end Compiler

end GraphQuery
