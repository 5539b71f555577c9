import GraphQuery.Insert.Lowering
import GraphQuery.Insert.Plan
import GraphQuery.Pattern.Basic

/-!
# Compiling inserts

A pattern that is to be inserted has to be a conjunction of asserted statements. Their writers make
the plan.
-/

namespace GraphQuery

/-- A reason why a pattern cannot be inserted. -/
inductive InsertError where
  /-- The pattern contains a disjunction, which does not say what to insert. -/
  | disjunction (part : Pattern)
  /-- The pattern contains a negation, and nothing can be inserted so that it does not hold. -/
  | negation (part : Pattern)
  | denial (s : Statement)
  /-- The writers make no plan. -/
  | unplanned (reason : WriteError)

def InsertError.message : InsertError → String
  | disjunction part => "unsupported in insert: disjunction `" ++ part.text ++ "`"
  | negation part => "unsupported in insert: negation `" ++ part.text ++ "`"
  | denial s => "unsupported in insert: negative statement `" ++ s.text ++ "`"
  | unplanned reason => reason.message

namespace Pattern

mutual

/-- The first part of a pattern that is neither a statement nor a conjunction. -/
def obstacle? : Pattern → Option InsertError
  | statement _ => none
  | conjunction parts => obstacleOf? parts
  | disjunction parts => some (.disjunction (.disjunction parts))
  | negation part => some (.negation (.negation part))

/-- The first such part of the patterns of a list. -/
def obstacleOf? : List Pattern → Option InsertError
  | [] => none
  | p :: ps => p.obstacle? <|> obstacleOf? ps

end

/-- The plan for inserting a pattern when the variables of `bound` are bound beforehand. -/
def insertPlan (p : Pattern) (bound : SortedSet Variable) : Except InsertError InsertPlan := do
  if let some e := p.obstacle? then throw e
  if let some s := p.statements.find? (·.isNegative) then throw (.denial s)
  let writers := p.statements.flatMap (·.writers)
  let subjects := (p.statements.flatMap (·.withInner)).map (·.var)
  (InsertPlan.ofWriters writers subjects bound).mapError .unplanned

end Pattern

end GraphQuery
