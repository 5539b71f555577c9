import GraphQuery.Term.Predicate

/-!
# Statements

A statement says something about one variable: it lists properties, and either asserts that all of
them hold or denies it. A property may carry further statements with it: a type that is given by
its label has that label, and an attribute has a statement of its own.
-/

namespace GraphQuery

/-- A reference to a type: the variable that stands for it, and its label if the query gives one. -/
structure TypeRef where
  var : Variable
  label : Option Label
  deriving Repr

/-- One player of a relation, and the role it plays if the query gives one. -/
structure RolePlayer where
  role : Option Label
  player : Variable
  deriving Repr

inductive PropertyKind where
  | isa
  | sub
  | label
  | id
  | dataType
  | has
  | relation
  | value
  | neq
  deriving Repr, DecidableEq, Ord

/-- Whether a variable can have at most one property of the kind. -/
def PropertyKind.isUnique : PropertyKind → Bool
  | isa | sub | label | id | dataType => true
  | has | relation | value | neq => false

inductive Polarity where
  | positive
  | negative
  deriving Repr, DecidableEq

def Polarity.flip : Polarity → Polarity
  | positive => negative
  | negative => positive

mutual

/-- One thing that a statement says about its variable. -/
inductive Property where
  /-- The variable is an instance of the type or of a subtype; of the type itself if `direct`. -/
  | isa (type : TypeRef) (direct : Bool)
  /-- The variable is a subtype of the type; an immediate one if `direct`. -/
  | sub (superType : TypeRef) (direct : Bool)
  | label (label : Label)
  | id (id : ConceptId)
  /-- The variable is an attribute type with values of this datatype. -/
  | dataType (type : ValueType)
  /-- The variable owns an attribute of the type, and the attribute's own statement holds. -/
  | has (attributeType : Label) (owned : Statement)
  | relation (players : List RolePlayer)
  /-- The variable is an attribute whose value the predicate admits. -/
  | value (predicate : ValuePredicate)
  | neq (other : Variable)

/-- Properties of one variable, asserted together or denied together. -/
structure Statement where
  var : Variable
  polarity : Polarity
  properties : List Property

end

namespace TypeRef

/-- The type with this label, which `var` stands for. -/
def labelled (var : Variable) (label : Label) : TypeRef := ⟨var, some label⟩

/-- That the type has its label, if the label is given. -/
def labelStatement? (type : TypeRef) : Option Statement :=
  type.label.map fun label => ⟨type.var, .positive, [.label label]⟩

end TypeRef

namespace Property

def kind : Property → PropertyKind
  | isa .. => .isa
  | sub .. => .sub
  | label _ => .label
  | id _ => .id
  | dataType _ => .dataType
  | has .. => .has
  | relation _ => .relation
  | value _ => .value
  | neq _ => .neq

def predicate? : Property → Option ValuePredicate
  | value predicate => some predicate
  | _ => none

def isaType? : Property → Option TypeRef
  | isa type _ => some type
  | _ => none

/-- The statements that a property carries directly. -/
def carried : Property → List Statement
  | isa type _ => type.labelStatement?.toList
  | sub superType _ => superType.labelStatement?.toList
  | has _ owned => [owned]
  | label _ | id _ | dataType _ | relation _ | value _ | neq _ => []

end Property

namespace Statement

def about (var : Variable) : Statement := ⟨var, .positive, []⟩

def and (s : Statement) (p : Property) : Statement := { s with properties := s.properties ++ [p] }

def isNegative (s : Statement) : Bool := s.polarity = .negative

/-- The statement that denies what this one asserts, or asserts what it denies. -/
def negated (s : Statement) : Statement := { s with polarity := s.polarity.flip }

def withPolarity (s : Statement) (polarity : Polarity) : Statement := { s with polarity }

def property? (s : Statement) (kind : PropertyKind) : Option Property :=
  s.properties.find? (·.kind = kind)

def hasKind (s : Statement) (kind : PropertyKind) : Bool := s.properties.any (·.kind = kind)

def predicate? (s : Statement) : Option ValuePredicate := s.properties.findSome? (·.predicate?)

end Statement

mutual

/-- The variables that a property mentions, in the order of mention. -/
def Property.vars : Property → List Variable
  | .isa type _ => [type.var]
  | .sub superType _ => [superType.var]
  | .label _ | .id _ | .dataType _ => []
  | .has _ owned => owned.vars
  | .relation players => players.map (·.player)
  | .value predicate => predicate.operand.var?.toList
  | .neq other => [other]

/-- The variable of a statement and then those that its properties mention, each once, in the order
of first mention. -/
def Statement.vars : Statement → List Variable
  | ⟨var, _, properties⟩ => (var :: Property.varsOf properties).eraseDups

/-- The variables that the properties of a list mention, in the order of mention. -/
def Property.varsOf : List Property → List Variable
  | [] => []
  | p :: ps => p.vars ++ Property.varsOf ps

end

theorem Property.varsOf_eq_flatMap (ps : List Property) :
    Property.varsOf ps = ps.flatMap Property.vars := by
  induction ps with
  | nil => rfl
  | cons p ps ih => rw [Property.varsOf, ih, List.flatMap_cons]

def Statement.namedVars (s : Statement) : List Variable := s.vars.filter (·.isNamed)

mutual

/-- The statements that a property carries, each followed by those that it carries itself. -/
def Property.inner : Property → List Statement
  | .has _ owned => owned :: owned.inner
  | .isa type _ => type.labelStatement?.toList
  | .sub superType _ => superType.labelStatement?.toList
  | .label _ | .id _ | .dataType _ | .relation _ | .value _ | .neq _ => []

/-- The statements that the properties of a statement carry, at any depth. -/
def Statement.inner : Statement → List Statement
  | ⟨_, _, properties⟩ => Property.innerOf properties

/-- The statements that the properties of a list carry, at any depth. -/
def Property.innerOf : List Property → List Statement
  | [] => []
  | p :: ps => p.inner ++ Property.innerOf ps

end

theorem Property.innerOf_eq_flatMap (ps : List Property) :
    Property.innerOf ps = ps.flatMap Property.inner := by
  induction ps with
  | nil => rfl
  | cons p ps ih => rw [Property.innerOf, ih, List.flatMap_cons]

def Statement.withInner (s : Statement) : List Statement := s :: s.inner

end GraphQuery
