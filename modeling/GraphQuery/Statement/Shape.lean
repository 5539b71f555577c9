import GraphQuery.Statement.Basic

/-!
# Equality up to unnamed slots

Statements are compared by what they say. Generated variables are slots that a query leaves unnamed,
so any two of them compare as equal; the players of a relation form a multiset and the properties of
a statement a set. `==` is this comparison, as against `=`, which tells every variable from every
other.
-/

namespace GraphQuery

/-- Types of one shape: variables of one shape and the same label. -/
def TypeRef.alike (a b : TypeRef) : Bool := a.var.alike b.var && a.label = b.label

instance : BEq TypeRef := ⟨TypeRef.alike⟩

/-- Players of one shape: the same role and variables of one shape. -/
def RolePlayer.alike (a b : RolePlayer) : Bool := a.role = b.role && a.player.alike b.player

instance : BEq RolePlayer := ⟨RolePlayer.alike⟩

mutual

def Property.alike : Property → Property → Bool
  | .isa a directA, .isa b directB => a.alike b && directA = directB
  | .sub a directA, .sub b directB => a.alike b && directA = directB
  | .label a, .label b => a = b
  | .id a, .id b => a = b
  | .dataType a, .dataType b => a = b
  | .has typeA a, .has typeB b => typeA = typeB && a.alike b
  | .relation a, .relation b => a.isPerm b
  | .value a, .value b => a.alike b
  | .neq a, .neq b => a.alike b
  | _, _ => false
  termination_by structural p => p

/-- Statements of one shape: variables of one shape, the same polarity, and lists of properties that
are equally long and contain each other (`Statement.beq_eq`). -/
def Statement.alike : Statement → Statement → Bool
  | ⟨varA, polarityA, as⟩, ⟨varB, polarityB, bs⟩ =>
    varA.alike varB && polarityA = polarityB && as.length = bs.length &&
      Property.cover as bs (bs.map fun _ => false)

/-- Whether each property of the first list has one of its shape in the second, and each of the
second that is not marked has one in the first. No two properties are compared twice, since each may
carry statements with properties of their own. -/
def Property.cover : List Property → List Property → List Bool → Bool
  | [], _, marks => marks.all id
  | a :: as, bs, marks =>
    let alike := bs.map fun b => a.alike b
    alike.any id && Property.cover as bs (marks.zipWith (· || ·) alike)

end

instance : BEq Property := ⟨Property.alike⟩

instance : BEq Statement := ⟨Statement.alike⟩

theorem Property.cover_eq (as bs : List Property) (marked : Property → Bool) :
    Property.cover as bs (bs.map marked) =
      ((as.all fun a => bs.any fun b => a == b) &&
        bs.all fun b => marked b || as.any fun a => a == b) := by
  induction as generalizing marked with
  | nil => simp [Property.cover]
  | cons a as ih =>
    rw [Property.cover, List.zipWith_map, List.zipWith_self, ih, List.any_map, ← Bool.and_assoc]
    simp only [List.all_cons, List.any_cons, Bool.or_assoc]
    rfl

theorem Statement.beq_eq (s t : Statement) :
    (s == t) =
      (s.var.alike t.var && s.polarity = t.polarity && s.properties.length = t.properties.length &&
        ((s.properties.all fun a => t.properties.any fun b => a == b) &&
          t.properties.all fun b => s.properties.any fun a => a == b)) := by
  have h := Property.cover_eq s.properties t.properties fun _ => false
  simp only [Bool.false_or] at h
  cases s
  cases t
  exact h ▸ rfl

end GraphQuery
