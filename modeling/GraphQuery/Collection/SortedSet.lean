/-!
# Sorted sets

A finite set is held as the strictly ascending list of its members. Two sets with the same members
are therefore equal as values (`SortedSet.ext`), and a walk over the members is in ascending order.
-/

namespace GraphQuery

/-- A finite set, held as the strictly ascending list of its members. -/
structure SortedSet (α : Type) [Ord α] where
  toList : List α
  ascending : toList.Pairwise (fun a b => compare a b = .lt)
  deriving DecidableEq

namespace SortedSet

variable {α : Type} [Ord α]

/-- Puts `x` at its place in an ascending list; a member that is there already stays as it is. -/
def place (x : α) : List α → List α
  | [] => [x]
  | y :: ys =>
    match compare x y with
    | .lt => x :: y :: ys
    | .eq => y :: ys
    | .gt => y :: place x ys

theorem eq_or_mem_of_mem_place {x a : α} {l : List α} (h : a ∈ place x l) : a = x ∨ a ∈ l := by
  induction l with
  | nil => exact Or.inl (List.mem_singleton.1 h)
  | cons y ys ih =>
    simp only [place] at h
    split at h
    · exact List.mem_cons.1 h
    · exact Or.inr h
    · rcases List.mem_cons.1 h with h | h
      · exact Or.inr (h ▸ List.mem_cons_self)
      · exact (ih h).imp id (List.mem_cons_of_mem _)

theorem pairwise_place [Std.TransOrd α] (x : α) {l : List α}
    (h : l.Pairwise (fun a b => compare a b = .lt)) :
    (place x l).Pairwise (fun a b => compare a b = .lt) := by
  induction l with
  | nil => exact List.pairwise_singleton ..
  | cons y ys ih =>
    have ⟨hy, hys⟩ := List.pairwise_cons.1 h
    simp only [place]
    split
    · rename_i hxy
      refine List.pairwise_cons.2 ⟨fun a ha => ?_, h⟩
      rcases List.mem_cons.1 ha with rfl | ha
      · exact hxy
      · exact Std.TransCmp.lt_trans hxy (hy a ha)
    · exact h
    · rename_i hxy
      refine List.pairwise_cons.2 ⟨fun a ha => ?_, ih hys⟩
      rcases eq_or_mem_of_mem_place ha with rfl | ha
      · exact Std.OrientedCmp.lt_of_gt hxy
      · exact hy a ha

def empty : SortedSet α := ⟨[], .nil⟩

instance : Inhabited (SortedSet α) := ⟨empty⟩

instance : EmptyCollection (SortedSet α) := ⟨empty⟩

instance : Membership α (SortedSet α) := ⟨fun s x => x ∈ s.toList⟩

instance [DecidableEq α] (x : α) (s : SortedSet α) : Decidable (x ∈ s) :=
  inferInstanceAs (Decidable (x ∈ s.toList))

def size (s : SortedSet α) : Nat := s.toList.length

def isEmpty (s : SortedSet α) : Bool := s.toList.isEmpty

/-- The least member, and the set of the others. -/
def uncons? (s : SortedSet α) : Option (α × SortedSet α) :=
  match s with
  | ⟨[], _⟩ => none
  | ⟨x :: xs, ascending⟩ => some (x, ⟨xs, (List.pairwise_cons.1 ascending).2⟩)

section Build

variable [Std.TransOrd α]

def insert (s : SortedSet α) (x : α) : SortedSet α :=
  ⟨place x s.toList, pairwise_place x s.ascending⟩

/-- The set with all members of a list added, from the last to the first: where the list ascends,
each finds its place at once. -/
def insertMany (s : SortedSet α) (xs : List α) : SortedSet α := xs.foldr (fun x t => t.insert x) s

def ofList (xs : List α) : SortedSet α := empty.insertMany xs

def union (s t : SortedSet α) : SortedSet α := s.insertMany t.toList

end Build

@[simp] theorem mem_toList {s : SortedSet α} {x : α} : x ∈ s.toList ↔ x ∈ s := Iff.rfl

@[simp] theorem not_mem_empty {x : α} : x ∉ (empty : SortedSet α) := List.not_mem_nil

theorem mem_place [Std.LawfulEqOrd α] {x a : α} {l : List α} : a ∈ place x l ↔ a = x ∨ a ∈ l := by
  refine ⟨eq_or_mem_of_mem_place, fun h => ?_⟩
  induction l with
  | nil => simpa [place] using h
  | cons y ys ih =>
    simp only [place]
    split
    · exact List.mem_cons.2 h
    · rename_i hxy
      rcases h with rfl | h
      · exact Std.LawfulEqOrd.eq_of_compare hxy ▸ List.mem_cons_self
      · exact h
    · rcases h with h | h
      · exact List.mem_cons_of_mem _ (ih (Or.inl h))
      · rcases List.mem_cons.1 h with rfl | h
        · exact List.mem_cons_self
        · exact List.mem_cons_of_mem _ (ih (Or.inr h))

theorem nodup_toList [Std.LawfulEqOrd α] (s : SortedSet α) : s.toList.Nodup := by
  refine s.ascending.imp fun hlt heq => ?_
  simp [heq] at hlt

section Lawful

variable [Std.TransOrd α] [Std.LawfulEqOrd α]

@[simp] theorem mem_insert {s : SortedSet α} {x a : α} : a ∈ s.insert x ↔ a = x ∨ a ∈ s :=
  mem_place

@[simp] theorem mem_insertMany {s : SortedSet α} {xs : List α} {a : α} :
    a ∈ s.insertMany xs ↔ a ∈ s ∨ a ∈ xs := by
  induction xs with
  | nil => simp [insertMany]
  | cons x xs ih =>
    have step : s.insertMany (x :: xs) = (s.insertMany xs).insert x := rfl
    rw [step, mem_insert, ih, List.mem_cons]
    exact or_left_comm

@[simp] theorem mem_ofList {xs : List α} {a : α} : a ∈ ofList xs ↔ a ∈ xs := by
  simp [ofList]

@[simp] theorem mem_union {s t : SortedSet α} {a : α} : a ∈ s.union t ↔ a ∈ s ∨ a ∈ t := by
  simp [union]

/-- Distinct members are only put in order. -/
theorem toList_ofList_perm {xs : List α} (h : xs.Nodup) : (ofList xs).toList.Perm xs :=
  (List.perm_ext_iff_of_nodup (nodup_toList _) h).2 fun _ => mem_ofList

/-- Ascending lists with the same members are equal. -/
theorem eq_of_mem_iff {l m : List α} (hl : l.Pairwise (fun a b => compare a b = .lt))
    (hm : m.Pairwise (fun a b => compare a b = .lt)) (h : ∀ a, a ∈ l ↔ a ∈ m) : l = m := by
  induction l generalizing m with
  | nil =>
    cases m with
    | nil => rfl
    | cons y ys => exact absurd ((h y).2 List.mem_cons_self) List.not_mem_nil
  | cons x xs ih =>
    cases m with
    | nil => exact absurd ((h x).1 List.mem_cons_self) List.not_mem_nil
    | cons y ys =>
      have ⟨hx, hxs⟩ := List.pairwise_cons.1 hl
      have ⟨hy, hys⟩ := List.pairwise_cons.1 hm
      have irrefl (a : α) : compare a a ≠ .lt := by simp
      have hxy : x = y := by
        rcases List.mem_cons.1 ((h x).1 List.mem_cons_self) with e | hxm
        · exact e
        · rcases List.mem_cons.1 ((h y).2 List.mem_cons_self) with e | hyl
          · exact e.symm
          · exact absurd (hx y hyl) (Std.OrientedCmp.not_lt_of_lt (hy x hxm))
      subst hxy
      congr 1
      refine ih hxs hys fun a => ⟨fun ha => ?_, fun ha => ?_⟩
      · rcases List.mem_cons.1 ((h a).1 (List.mem_cons_of_mem _ ha)) with rfl | h'
        · exact absurd (hx a ha) (irrefl a)
        · exact h'
      · rcases List.mem_cons.1 ((h a).2 (List.mem_cons_of_mem _ ha)) with rfl | h'
        · exact absurd (hy a ha) (irrefl a)
        · exact h'

@[ext] theorem ext {s t : SortedSet α} (h : ∀ a, a ∈ s ↔ a ∈ t) : s = t := by
  cases s with
  | mk l hl =>
    cases t with
    | mk m hm =>
      have e : l = m := eq_of_mem_iff hl hm h
      subst e
      rfl

end Lawful

end SortedSet

end GraphQuery
