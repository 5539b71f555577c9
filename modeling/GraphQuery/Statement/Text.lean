import GraphQuery.Statement.Basic

/-!
# The text of statements

A statement is its variable, then its properties between commas, then a semicolon; a denied one
stands in `not` and braces.
-/

namespace GraphQuery

/-- A type is written by its label, or by its variable where the label is not given. -/
def TypeRef.text (type : TypeRef) : String :=
  match type.label with
  | some label => label.text
  | none => type.var.text

/-- A player is written after its role, if that is given. -/
def RolePlayer.text (rp : RolePlayer) : String :=
  match rp.role with
  | some role => role.text ++ ": " ++ rp.player.text
  | none => rp.player.text

def RolePlayer.listText (players : List RolePlayer) : String :=
  "(" ++ String.intercalate ", " (players.map text) ++ ")"

/-- The word for a type: with an exclamation mark where subtypes do not count. -/
def isaWord (direct : Bool) : String := if direct then "isa!" else "isa"

/-- The word for a supertype: with an exclamation mark where it has to be the immediate one. -/
def subWord (direct : Bool) : String := if direct then "sub!" else "sub"

def PropertyKind.text : PropertyKind → String
  | isa => "Isa"
  | sub => "Sub"
  | label => "Label"
  | id => "Id"
  | dataType => "DataType"
  | has => "Has"
  | relation => "Relation"
  | value => "Value"
  | neq => "Neq"

/-- What is written for an owned attribute: the value or the predicate of an unnamed attribute that
has one, and the variable of any other. -/
def Statement.ownedText (owned : Statement) : String :=
  match owned.predicate? with
  | some predicate =>
    if owned.var.isNamed then owned.var.text
    else
      match predicate.fixedValue? with
      | some value => value.text
      | none => predicate.text
  | none => owned.var.text

def Property.text : Property → String
  | isa type direct => isaWord direct ++ " " ++ type.text
  | sub superType direct => subWord direct ++ " " ++ superType.text
  | label l => "type " ++ l.text
  | id concept => "id " ++ concept.text
  | dataType type => "datatype " ++ type.text
  | has attributeType owned => "has " ++ attributeType.text ++ " " ++ owned.ownedText
  | relation players => RolePlayer.listText players
  | value predicate => predicate.text
  | neq other => "!= " ++ other.text

namespace Statement

/-- What a statement says, whether it asserts it or denies it. -/
def bodyText (s : Statement) : String :=
  let said := String.intercalate ", " (s.properties.map Property.text)
  s.var.text ++ (if s.properties.isEmpty then "" else " ") ++ said ++ ";"

def text (s : Statement) : String :=
  if s.isNegative then "not \x7b " ++ s.bodyText ++ " \x7d;" else s.bodyText

end Statement

end GraphQuery
