import GraphQuery.Term.Value
import GraphQuery.Term.Variable

/-!
# Value predicates

A predicate compares the value of an attribute with a constant or with the value of another
variable.
-/

namespace GraphQuery

inductive Comparator where
  | equal
  | notEqual
  | greater
  | greaterOrEqual
  | less
  | lessOrEqual
  | contains
  | like
  deriving Repr, DecidableEq, Ord

def Comparator.symbol : Comparator → String
  | equal => "=="
  | notEqual => "!=="
  | greater => ">"
  | greaterOrEqual => ">="
  | less => "<"
  | lessOrEqual => "<="
  | contains => "contains"
  | like => "like"

inductive Operand where
  | constant (value : Value)
  | var (var : Variable)
  deriving Repr, DecidableEq

namespace Operand

def var? : Operand → Option Variable
  | constant _ => none
  | var v => some v

def constant? : Operand → Option Value
  | constant value => some value
  | var _ => none

/-- An operand is written as the constant or variable that it is. -/
def text : Operand → String
  | constant value => value.text
  | var v => v.text

/-- Operands of one shape: equal constants, or variables of one shape. -/
def alike : Operand → Operand → Bool
  | constant a, constant b => a = b
  | var a, var b => a.alike b
  | _, _ => false

end Operand

/-- A comparison with an operand, such as `== "Bob"` or `> $y`. -/
structure ValuePredicate where
  comparator : Comparator
  operand : Operand
  deriving Repr, DecidableEq

namespace ValuePredicate

/-- The constant that an attribute must have as its value, if the predicate fixes one. -/
def fixedValue? (p : ValuePredicate) : Option Value :=
  if p.comparator = .equal then p.operand.constant? else none

/-- Whether an insert can make the predicate true: it has to fix the value. -/
def isInsertable (p : ValuePredicate) : Bool := p.fixedValue?.isSome

def text (p : ValuePredicate) : String := p.comparator.symbol ++ " " ++ p.operand.text

/-- Predicates of one shape: the same comparison with operands of one shape. -/
def alike (p q : ValuePredicate) : Bool :=
  p.comparator = q.comparator && p.operand.alike q.operand

end ValuePredicate

end GraphQuery
