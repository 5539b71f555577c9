/-!
# Collections without repetition

A collection that keeps the first of equal members and the order in which it got them, and that is
compared as a set. What counts as equal is the members' own `==`.
-/

namespace GraphQuery

/-- Members in the order of their first occurrence, no two of them equal. -/
structure Distinct (α : Type) [BEq α] where
  toList : List α
  pairwise_ne : toList.Pairwise (fun a b => (b == a) = false)

namespace Distinct

variable {α : Type} [BEq α]

/-- Induction along the erasure of duplicates: of what follows a member, its equals are left out. -/
theorem eraseDups_induction {motive : List α → Prop} (nil : motive [])
    (cons : ∀ a as, motive (as.filter fun b => !b == a) → motive (a :: as)) (l : List α) :
    motive l := by
  induction h : l.length using Nat.strongRecOn generalizing l with
  | ind n ih =>
    cases l with
    | nil => exact nil
    | cons a as =>
      have hlength := List.length_filter_le (fun b => !b == a) as
      rw [List.length_cons] at h
      exact cons a as (ih _ (by omega) _ rfl)

theorem mem_of_mem_eraseDups {l : List α} {b : α} (hb : b ∈ l.eraseDups) : b ∈ l := by
  induction l using eraseDups_induction with
  | nil => exact hb
  | cons a as ih =>
    rw [List.eraseDups_cons] at hb
    rcases List.mem_cons.1 hb with rfl | hb
    · exact List.mem_cons_self
    · exact List.mem_cons_of_mem _ (List.mem_filter.1 (ih hb)).1

theorem pairwise_eraseDups (l : List α) :
    l.eraseDups.Pairwise (fun a b => (b == a) = false) := by
  induction l using eraseDups_induction with
  | nil => exact .nil
  | cons a as ih =>
    rw [List.eraseDups_cons]
    refine List.pairwise_cons.2 ⟨fun b hb => ?_, ih⟩
    simpa using (List.mem_filter.1 (mem_of_mem_eraseDups hb)).2

def ofList (l : List α) : Distinct α := ⟨l.eraseDups, pairwise_eraseDups l⟩

def empty : Distinct α := ⟨[], .nil⟩

instance : Inhabited (Distinct α) := ⟨empty⟩

def size (s : Distinct α) : Nat := s.toList.length

def isEmpty (s : Distinct α) : Bool := s.toList.isEmpty

/-- Collections are equal when they have equally many members and each of the one is in the other,
whatever the order. -/
instance : BEq (Distinct α) :=
  ⟨fun s t => s.size = t.size && s.toList.all fun a => t.toList.any fun b => a == b⟩

end Distinct

end GraphQuery
