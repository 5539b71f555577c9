import GraphQuery.Collection.SortedMap
import GraphQuery.Term.Concept

/-!
# Label tables

A label table numbers labels in the order in which it first meets them, so that a store can refer to
a label by its number. It has a map in either direction and the number of the next label; numbers
and labels determine each other (`label?_eq_some_iff`).
-/

namespace GraphQuery

structure LabelId where
  number : Nat
  deriving Repr, DecidableEq, Inhabited

namespace LabelId

instance : Ord LabelId := ⟨compareOn number⟩

instance : Std.TransOrd LabelId := inferInstanceAs (Std.TransCmp (compareOn number))

instance : Std.LawfulEqOrd LabelId where
  eq_of_compare {a b} h := by
    have e : a.number = b.number := Std.LawfulEqOrd.eq_of_compare (α := Nat) h
    cases a
    cases b
    exact congrArg mk e

end LabelId

/-- Labels, numbered from zero. -/
structure LabelTable where
  idByLabel : SortedMap Label LabelId
  labelById : SortedMap LabelId Label
  /-- How many labels there are, which is the number of the next one. -/
  size : Nat
  inverse : ∀ id l, labelById.get? id = some l ↔ idByLabel.get? l = some id
  numbered : ∀ id, (labelById.get? id).isSome ↔ id.number < size

namespace LabelTable

def empty : LabelTable := ⟨.empty, .empty, 0, by simp, by simp⟩

instance : Inhabited LabelTable := ⟨empty⟩

def isEmpty (t : LabelTable) : Bool := t.size == 0

/-- The number of a label that the table has met. -/
def idOf? (t : LabelTable) (l : Label) : Option LabelId := t.idByLabel.get? l

def label? (t : LabelTable) (id : LabelId) : Option Label := t.labelById.get? id

theorem label?_eq_some_iff {t : LabelTable} {l : Label} {id : LabelId} :
    t.label? id = some l ↔ t.idOf? l = some id :=
  t.inverse id l

theorem isSome_label? {t : LabelTable} {id : LabelId} :
    (t.label? id).isSome ↔ id.number < t.size :=
  t.numbered id

theorem label?_size (t : LabelTable) : t.label? ⟨t.size⟩ = none := by
  rw [← Option.not_isSome_iff_eq_none, isSome_label?]
  exact Nat.lt_irrefl _

/-- The table with one more label, which gets the next number. -/
def add (t : LabelTable) (l : Label) (hnew : t.idOf? l = none) : LabelTable where
  idByLabel := t.idByLabel.insert l ⟨t.size⟩
  labelById := t.labelById.insert ⟨t.size⟩ l
  size := t.size + 1
  inverse id k := by
    have hnumber : t.idByLabel.get? k ≠ some ⟨t.size⟩ := by
      rw [Ne, ← t.inverse]
      simp [show t.labelById.get? ⟨t.size⟩ = none from t.label?_size]
    have hlabel : t.labelById.get? id ≠ some l := by
      rw [Ne, t.inverse]
      simp [show t.idByLabel.get? l = none from hnew]
    rw [SortedMap.get?_insert, SortedMap.get?_insert]
    split <;> split <;> simp_all [t.inverse]
  numbered id := by
    rw [SortedMap.get?_insert]
    split
    case isTrue h => simp [← h]
    case isFalse h =>
      have hne : id.number ≠ t.size := fun e => h (congrArg LabelId.mk e.symm)
      rw [t.numbered]
      omega

/-- The table that has met a label, and the number of the label. -/
def intern (t : LabelTable) (l : Label) : LabelTable × LabelId :=
  match h : t.idOf? l with
  | some id => (t, id)
  | none => (t.add l h, ⟨t.size⟩)

theorem idOf?_intern (t : LabelTable) (l : Label) : (t.intern l).1.idOf? l = some (t.intern l).2 := by
  rw [intern]
  split
  · assumption
  · simp [idOf?, add]

/-- All labels of a table have the same numbers in another one. -/
def Within (t u : LabelTable) : Prop := ∀ id l, t.label? id = some l → u.label? id = some l

theorem Within.refl (t : LabelTable) : t.Within t := fun _ _ h => h

theorem Within.trans {t u v : LabelTable} (h : t.Within u) (k : u.Within v) : t.Within v :=
  fun id l hl => k id l (h id l hl)

theorem within_intern (t : LabelTable) (l : Label) : t.Within (t.intern l).1 := by
  intro id k hk
  rw [intern]
  split
  · exact hk
  · have hne : (⟨t.size⟩ : LabelId) ≠ id := by
      rintro rfl
      rw [label?_size] at hk
      cases hk
    simpa [label?, add, hne] using hk

end LabelTable

end GraphQuery
