import GraphQuery.Statement.Text

/-!
# Fragments

A fragment is one step of a traversal: it follows an edge of the graph from one variable to another,
or tests a variable that has been reached. An edge can be followed either way, and the two ways are
alternatives for one constraint, so fragments come in sets of which a traversal takes one each.
-/

namespace GraphQuery

inductive Edge where
  /-- From an instance to the type that it is an instance of, no supertype of it. -/
  | isa (member type : Variable)
  /-- From a type to a supertype, the immediate one if `direct`; any type up to itself if not. -/
  | sub (lower upper : Variable) (direct : Bool)
  | has (owner owned : Variable)
  /-- From a relation to a player, in the role if one is given; the edge has a variable itself. -/
  | role (relation edge : Variable) (played : Option Label) (player : Variable)
  deriving Repr, DecidableEq

namespace Edge

def source : Edge → Variable
  | isa member _ => member
  | sub lower _ _ => lower
  | has owner _ => owner
  | role relation _ _ _ => relation

def target : Edge → Variable
  | isa _ type => type
  | sub _ upper _ => upper
  | has _ owned => owned
  | role _ _ _ player => player

def own? : Edge → Option Variable
  | role _ edge _ _ => some edge
  | isa .. | sub .. | has .. => none

/-- How much it costs to follow the edge: more where it stands for a path. -/
def cost : Edge → Nat
  | sub _ _ false => 12
  | _ => 10

def text : Edge → String
  | isa .. => "isa"
  | sub _ _ direct => if direct then "sub" else "sub*"
  | has .. => "has"
  | role _ edge played _ =>
    edge.text ++
      match played with
      | some label => " [" ++ label.text ++ "]"
      | none => ""

end Edge

inductive Direction where
  | forward
  | backward
  deriving Repr, DecidableEq

/-- One step of a traversal. -/
inductive Fragment where
  | edge (edge : Edge) (direction : Direction)
  | label (var : Variable) (label : Label)
  | id (var : Variable) (id : ConceptId)
  | value (var : Variable) (predicate : ValuePredicate)
  | dataType (var : Variable) (type : ValueType)
  /-- Tests for another concept than that of a second variable. -/
  | neq (var other : Variable)
  deriving Repr, DecidableEq

namespace Fragment

/-- The variable that the step starts from. -/
def start : Fragment → Variable
  | edge e .forward => e.source
  | edge e .backward => e.target
  | label var _ | id var _ | value var _ | dataType var _ | neq var _ => var

/-- The variable that the step reaches, if it follows an edge. -/
def finish? : Fragment → Option Variable
  | edge e .forward => some e.target
  | edge e .backward => some e.source
  | label .. | id .. | value .. | dataType .. | neq .. => none

/-- The variables that the step mentions besides those. -/
def others : Fragment → List Variable
  | edge e _ => e.own?.toList
  | value _ predicate => predicate.operand.var?.toList
  | neq _ other => [other]
  | label .. | id .. | dataType .. => []

/-- The variables of the step from its start to its finish. -/
def vars (f : Fragment) : List Variable := f.start :: (f.others ++ f.finish?.toList)

/-- How much the step costs: the fewer concepts pass it, the less. -/
def cost : Fragment → Nat
  | id .. => 1
  | label .. => 2
  | value _ predicate => if predicate.fixedValue?.isSome then 2 else 4
  | dataType .. => 3
  | neq .. => 4
  | edge e _ => e.cost

/-- An edge is written as an arrow, a test in brackets behind its variable. -/
def text : Fragment → String
  | edge e .forward => e.source.text ++ "-[" ++ e.text ++ "]->" ++ e.target.text
  | edge e .backward => e.target.text ++ "<-[" ++ e.text ++ "]-" ++ e.source.text
  | label var l => var.text ++ "[label:" ++ l.text ++ "]"
  | id var concept => var.text ++ "[id:" ++ concept.text ++ "]"
  | value var predicate => var.text ++ "[value:" ++ predicate.text ++ "]"
  | dataType var type => var.text ++ "[datatype:" ++ type.text ++ "]"
  | neq var other => var.text ++ "[neq:" ++ other.text ++ "]"

end Fragment

/-- Alternative steps for one constraint. -/
structure FragmentSet where
  /-- The kind of property that the constraint comes from. -/
  property : PropertyKind
  fragments : List Fragment
  deriving Repr, DecidableEq

namespace FragmentSet

/-- An edge that is followed either way. -/
def bothWays (property : PropertyKind) (e : Edge) : FragmentSet :=
  ⟨property, [.edge e .forward, .edge e .backward]⟩

def costOfNone : Nat := UInt32.size - 1

def cost (s : FragmentSet) : Nat := (s.fragments.map (·.cost)).min?.getD costOfNone

/-- The variables of the alternatives, each once, in the order of first mention. -/
def vars (s : FragmentSet) : List Variable := (s.fragments.flatMap (·.vars)).eraseDups

def text (s : FragmentSet) : String :=
  s.property.text ++ " \x7b " ++ String.intercalate " | " (s.fragments.map (·.text)) ++ " \x7d"

end FragmentSet

end GraphQuery
