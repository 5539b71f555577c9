import GraphQuery.Pattern.NormalForm

/-!
# Validation

A normal form can be run as a query when each of its conjunctions asserts something and every denial
in it shares a named variable with what is asserted, for it is the asserted part that binds the
variables of a denial. The number of conjunctions is checked before they are built.
-/

namespace GraphQuery

inductive PatternError where
  | noConjunction
  | emptyConjunction
  | nothingAsserted (conjunction : Conjunction)
  /-- A denial shares no named variable with what its conjunction asserts. -/
  | unboundDenial (denial : Statement) (conjunction : Conjunction)
  /-- The normal form would have `count` conjunctions, or at least that many. -/
  | tooManyConjunctions (count limit : Nat)
  /-- A normal form has a denial of several units. -/
  | compoundDenial (denial : Statement)

namespace PatternError

def illFormedText (reason pattern : String) : String :=
  "ill-formed pattern: " ++ reason ++ " (in `" ++ pattern ++ "`)"

def message : PatternError → String
  | noConjunction => illFormedText "pattern has no disjuncts" ""
  | emptyConjunction => illFormedText "empty conjunction" (Conjunction.text .empty)
  | nothingAsserted conjunction =>
    illFormedText "negation requires at least one positive conjunct to bound its variables"
      conjunction.text
  | unboundDenial denial conjunction =>
    illFormedText ("variables of `" ++ denial.text ++ "` are not bound outside the negation")
      conjunction.text
  | tooManyConjunctions count limit =>
    "pattern normalizes to " ++ toString count ++ " disjuncts, above the limit of " ++
      toString limit
  | compoundDenial denial =>
    "pattern is not in disjunctive normal form: negative statement `" ++ denial.text ++
      "` has more than one unit"

end PatternError

namespace Conjunction

/-- The named variables that the asserted statements mention. -/
def boundVars (c : Conjunction) : List Variable := c.positive.flatMap (·.namedVars)

/-- The first denial that shares no named variable with the asserted statements. -/
def unboundDenial? (c : Conjunction) : Option Statement :=
  let bound := c.boundVars
  c.negative.find? fun denial => !denial.namedVars.any (bound.contains ·)

/-- Why a conjunction cannot be run as a query, if it cannot. -/
def flaw? (c : Conjunction) : Option PatternError :=
  if c.isEmpty then some .emptyConjunction
  else if c.positive.isEmpty then some (.nothingAsserted c)
  else c.unboundDenial?.map fun denial => .unboundDenial denial c

end Conjunction

namespace NormalForm

/-- The first denial that has several units. -/
def compoundDenial? (f : NormalForm) : Option Statement :=
  f.toList.findSome? fun c => c.negative.find? fun denial => 1 < denial.units.length

/-- Why a normal form cannot be run as a query, if it cannot. -/
def flaw? (f : NormalForm) : Option PatternError :=
  if f.isEmpty then some .noConjunction else f.toList.findSome? Conjunction.flaw?

end NormalForm

structure ExecutableForm where
  form : NormalForm
  flawless : form.flaw? = none

namespace NormalForm

/-- Accepts a normal form whose denials have one unit each. -/
def checked (f : NormalForm) : Except PatternError NormalForm :=
  match f.compoundDenial? with
  | some denial => .error (.compoundDenial denial)
  | none => .ok f

/-- Accepts a normal form that can be run as a query. -/
def validate (f : NormalForm) : Except PatternError ExecutableForm :=
  match h : f.flaw? with
  | some flaw => .error flaw
  | none => .ok ⟨f, h⟩

end NormalForm

namespace Pattern

/-- The normal form of a pattern, unless it could have more conjunctions than the limit. -/
def normalize (p : Pattern) (limit : Nat) : Except PatternError NormalForm :=
  if limit < p.bound then .error (.tooManyConjunctions p.bound limit) else .ok p.normalForm

/-- The normal form of a pattern, if it can be run as a query. -/
def validate (p : Pattern) (limit : Nat) : Except PatternError ExecutableForm := do
  (← p.normalize limit).validate

def defaultLimit : Nat := 1024

end Pattern

end GraphQuery
