import GraphQuery.Statement.Shape
import GraphQuery.Statement.Text

/-!
# Patterns

A pattern combines statements by conjunction, disjunction and negation.
-/

namespace GraphQuery

/-- What a query asks for. -/
inductive Pattern where
  | statement (s : Statement)
  | conjunction (parts : List Pattern)
  | disjunction (parts : List Pattern)
  | negation (part : Pattern)

namespace Pattern

mutual

/-- The statements of a pattern from left to right, without those that they carry. -/
def statements : Pattern → List Statement
  | statement s => [s]
  | conjunction parts | disjunction parts => statementsOf parts
  | negation part => part.statements

def statementsOf : List Pattern → List Statement
  | [] => []
  | p :: ps => p.statements ++ statementsOf ps

end

mutual

/-- Patterns of one shape: the same tree with statements of one shape at its leaves. -/
def alike : Pattern → Pattern → Bool
  | statement a, statement b => a == b
  | conjunction as, conjunction bs | disjunction as, disjunction bs => alikeLists as bs
  | negation a, negation b => a.alike b
  | _, _ => false
  termination_by structural p => p

/-- Lists of patterns that agree in shape place by place. -/
def alikeLists : List Pattern → List Pattern → Bool
  | [], [] => true
  | a :: as, b :: bs => a.alike b && alikeLists as bs
  | _, _ => false

end

instance : BEq Pattern := ⟨alike⟩

mutual

def text : Pattern → String
  | statement s => s.text
  | conjunction parts => "\x7b " ++ String.join ((texts parts).map (· ++ " ")) ++ "\x7d;"
  | disjunction parts =>
    String.intercalate " or " ((texts parts).map ("\x7b " ++ · ++ " \x7d")) ++ ";"
  | negation part => "not \x7b " ++ part.text ++ " \x7d;"

def texts : List Pattern → List String
  | [] => []
  | p :: ps => p.text :: texts ps

end

end Pattern

end GraphQuery
