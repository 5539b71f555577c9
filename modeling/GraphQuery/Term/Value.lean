import GraphQuery.Decimal.Double
import GraphQuery.Term.Concept
import GraphQuery.Text.Quoted

/-!
# Values

The constants that attributes carry and predicates compare with.
-/

namespace GraphQuery

/-- A constant of one of the datatypes. -/
inductive Value where
  | string (text : String)
  | long (number : Int)
  | double (number : Double)
  | boolean (truth : Bool)
  /-- A point in time, in milliseconds. -/
  | datetime (time : Int)
  deriving Repr, DecidableEq

namespace Value

def type : Value → ValueType
  | string _ => .string
  | long _ => .long
  | double _ => .double
  | boolean _ => .boolean
  | datetime _ => .datetime

/-- A text is written in quotes, a time after an at sign, and all else bare. -/
def text : Value → String
  | string text => Text.quoted text
  | long number => toString number
  | double number => number.text
  | boolean truth => if truth then "true" else "false"
  | datetime time => "@" ++ toString time

end Value

end GraphQuery
