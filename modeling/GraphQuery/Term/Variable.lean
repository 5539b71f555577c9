/-!
# Variables

A variable is a slot of a query. The query's own variables have names; further ones are generated
for what the query leaves unnamed, such as the type in `isa person`. A generated variable is known
by its number, a word of 64 bits. A supply hands the numbers out in ascending order, and after the
last one it begins anew.
-/

namespace GraphQuery

/-- A slot of a query. -/
inductive Variable where
  | named (name : String)
  /-- A variable made for something that the query leaves unnamed. -/
  | generated (number : UInt64)
  deriving Repr, DecidableEq, Inhabited

namespace Variable

def isNamed : Variable → Bool
  | named _ => true
  | generated _ => false

def name? : Variable → Option String
  | named name => some name
  | generated _ => none

def number? : Variable → Option UInt64
  | named _ => none
  | generated number => some number

/-- A variable is written after a dollar sign, a generated one by its number after a low line. -/
def text : Variable → String
  | named name => "$" ++ name
  | generated number => "$_" ++ toString number

/-- Named variables come first, by name; then the generated ones by number. -/
instance : Ord Variable where
  compare
    | named a, named b => compare a b
    | named _, generated _ => .lt
    | generated _, named _ => .gt
    | generated a, generated b => compare a b

instance : Std.TransOrd Variable where
  eq_swap {a b} := by
    cases a <;> cases b
    · exact Std.OrientedOrd.eq_swap (α := String)
    · rfl
    · rfl
    · exact Std.OrientedOrd.eq_swap (α := UInt64)
  isLE_trans {a b c} hab hbc := by
    cases a <;> cases b <;> cases c
    · exact Std.TransOrd.isLE_trans (α := String) hab hbc
    · rfl
    · cases hbc
    · rfl
    · cases hab
    · cases hab
    · cases hbc
    · exact Std.TransOrd.isLE_trans (α := UInt64) hab hbc

instance : Std.LawfulEqOrd Variable where
  eq_of_compare {a b} h := by
    cases a <;> cases b
    · exact congrArg named (Std.LawfulEqOrd.eq_of_compare (α := String) h)
    · cases h
    · cases h
    · exact congrArg generated (Std.LawfulEqOrd.eq_of_compare (α := UInt64) h)

/-- What statements compare of a variable: its name, if it has one.

Generated variables all have the same shape, since two statements that differ in their unnamed slots
alone say the same thing. -/
def alike (a b : Variable) : Bool := a.name? = b.name?

theorem alike_iff {a b : Variable} : a.alike b = true ↔ a.name? = b.name? := by
  simp [alike]

end Variable

/-- Hands out generated variables in ascending order, and begins anew after the last one. -/
structure Supply where
  /-- The number of the next variable. -/
  next : UInt64
  deriving Repr, DecidableEq, Inhabited

/-- A computation that takes variables from a supply. -/
abbrev Fresh := StateM Supply

namespace Supply

/-- The supply from which nothing has been taken. -/
def full : Supply := ⟨0⟩

def fresh : Fresh Variable := fun supply => (.generated supply.next, ⟨supply.next + 1⟩)

/-- Passes over all numbers up to the greatest one of a list of variables. Above the last number there
is none, and the supply begins anew. -/
def reserve (supply : Supply) (vars : List Variable) : Supply :=
  match (vars.filterMap Variable.number?).max? with
  | some greatest => if supply.next ≤ greatest then ⟨greatest + 1⟩ else supply
  | none => supply

end Supply

end GraphQuery
