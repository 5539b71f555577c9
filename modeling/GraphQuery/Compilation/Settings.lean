import GraphQuery.Json.Basic
import GraphQuery.Pattern.Validation

/-!
# Settings

What a compiler can be told, and the JSON text that tells it.
-/

namespace GraphQuery

/-- What a compiler can be told. -/
structure Settings where
  /-- The limit on the conjunctions of a normal form. -/
  maxDisjuncts : Nat := Pattern.defaultLimit
  /-- Whether constraints are taken in the order of their costs. -/
  orderFragments : Bool := true
  deriving Repr, DecidableEq, Inhabited

namespace Settings

def standard : Settings := {}

/-- A limit: a number of at most 64 bits. -/
def limit? : Json → Option Nat
  | .scalar (.natural n) => if n ≤ countCap then some n else none
  | _ => none

/-- A switch. -/
def switch? : Json → Option Bool
  | .scalar (.boolean truth) => some truth
  | _ => none

/-- Settings that have been read so far. -/
structure Given where
  maxDisjuncts : Option Nat := none
  orderFragments : Option Bool := none

/-- The settings read so far with one more member of an object; a setting may not be given twice,
and a member that is no setting is passed over. -/
def Given.add (given : Given) (member : Option String × Json) : Option Given := do
  match ← member.1 with
  | "max_disjuncts" =>
    if given.maxDisjuncts.isSome then none
    else return { given with maxDisjuncts := some (← limit? member.2) }
  | "order_fragments" =>
    if given.orderFragments.isSome then none
    else return { given with orderFragments := some (← switch? member.2) }
  | _ => return given

/-- The settings that have been read, and the standard ones for all others. -/
def Given.settings (given : Given) : Settings :=
  ⟨given.maxDisjuncts.getD standard.maxDisjuncts, given.orderFragments.getD standard.orderFragments⟩

/-- The settings of a JSON value: an object with a member for each, or an array with the limit
first and the order second, from which the last ones may be left out. -/
def ofJson? : Json → Option Settings
  | .object members => return (← members.foldlM Given.add {}).settings
  | .array [] => some standard
  | .array [limit] => return { standard with maxDisjuncts := ← limit? limit }
  | .array [limit, order] => return ⟨← limit? limit, ← switch? order⟩
  | _ => none

def parse? (s : String) : Option Settings := do ofJson? (← Json.parse? s)

def text (s : Settings) : String :=
  "\x7b\"max_disjuncts\":" ++ toString s.maxDisjuncts ++ ",\"order_fragments\":" ++
    (if s.orderFragments then "true" else "false") ++ "\x7d"

end Settings

end GraphQuery
