import GraphQuery.Collection.SortedSet

/-!
# Sorted maps

A finite map is held as the list of its entries in strictly ascending order of their keys, so that
each key has one entry and a walk over the entries is in key order.
-/

namespace GraphQuery

/-- A finite map, held as its entries in strictly ascending order of their keys. -/
structure SortedMap (α β : Type) [Ord α] where
  toList : List (α × β)
  ascending : toList.Pairwise (fun a b => compare a.1 b.1 = .lt)
  deriving DecidableEq

namespace SortedMap

variable {α β : Type} [Ord α]

/-- Puts an entry at its place in a list ascending by key, replacing an entry of the same key. -/
def place (k : α) (v : β) : List (α × β) → List (α × β)
  | [] => [(k, v)]
  | e :: es =>
    match compare k e.1 with
    | .lt => (k, v) :: e :: es
    | .eq => (k, v) :: es
    | .gt => e :: place k v es

theorem eq_or_mem_of_mem_place {k : α} {v : β} {e : α × β} {l : List (α × β)}
    (h : e ∈ place k v l) : e = (k, v) ∨ e ∈ l := by
  induction l with
  | nil => exact Or.inl (List.mem_singleton.1 h)
  | cons y ys ih =>
    simp only [place] at h
    split at h
    · exact List.mem_cons.1 h
    · exact (List.mem_cons.1 h).imp id (List.mem_cons_of_mem _)
    · rcases List.mem_cons.1 h with h | h
      · exact Or.inr (h ▸ List.mem_cons_self)
      · exact (ih h).imp id (List.mem_cons_of_mem _)

theorem pairwise_place [Std.TransOrd α] (k : α) (v : β) {l : List (α × β)}
    (h : l.Pairwise (fun a b => compare a.1 b.1 = .lt)) :
    (place k v l).Pairwise (fun a b => compare a.1 b.1 = .lt) := by
  induction l with
  | nil => exact List.pairwise_singleton ..
  | cons y ys ih =>
    have ⟨hy, hys⟩ := List.pairwise_cons.1 h
    simp only [place]
    split
    · rename_i hky
      refine List.pairwise_cons.2 ⟨fun e he => ?_, h⟩
      rcases List.mem_cons.1 he with rfl | he
      · exact hky
      · exact Std.TransCmp.lt_trans hky (hy e he)
    · rename_i hky
      exact List.pairwise_cons.2 ⟨fun e he => Std.TransCmp.lt_of_eq_of_lt hky (hy e he), hys⟩
    · rename_i hky
      refine List.pairwise_cons.2 ⟨fun e he => ?_, ih hys⟩
      rcases eq_or_mem_of_mem_place he with rfl | he
      · exact Std.OrientedCmp.lt_of_gt hky
      · exact hy e he

def empty : SortedMap α β := ⟨[], .nil⟩

instance : Inhabited (SortedMap α β) := ⟨empty⟩

instance : EmptyCollection (SortedMap α β) := ⟨empty⟩

def get? [DecidableEq α] (m : SortedMap α β) (k : α) : Option β :=
  (m.toList.find? (fun e => decide (e.1 = k))).map (·.2)

def contains [DecidableEq α] (m : SortedMap α β) (k : α) : Bool := (m.get? k).isSome

def keys (m : SortedMap α β) : List α := m.toList.map (·.1)

def size (m : SortedMap α β) : Nat := m.toList.length

/-- The map with `k` sent to `v`, whatever it had for `k` before. -/
def insert [Std.TransOrd α] (m : SortedMap α β) (k : α) (v : β) : SortedMap α β :=
  ⟨place k v m.toList, pairwise_place k v m.ascending⟩

/-- The map of a list of entries; of two entries with one key the later counts. -/
def ofList [Std.TransOrd α] (es : List (α × β)) : SortedMap α β :=
  es.foldl (fun m e => m.insert e.1 e.2) empty

/-- Replaces the value of `k`, or of a default where there is none, by its image. -/
def update [DecidableEq α] [Std.TransOrd α] (m : SortedMap α β) (k : α) (default : β)
    (f : β → β) : SortedMap α β :=
  m.insert k (f ((m.get? k).getD default))

@[simp] theorem get?_empty [DecidableEq α] (k : α) : (empty : SortedMap α β).get? k = none := rfl

theorem find?_place [DecidableEq α] [Std.TransOrd α] [Std.LawfulEqOrd α] (k q : α) (v : β)
    (l : List (α × β)) :
    ((place k v l).find? (fun e => decide (e.1 = q))).map (·.2) =
      if k = q then some v else (l.find? (fun e => decide (e.1 = q))).map (·.2) := by
  induction l with
  | nil => by_cases h : k = q <;> simp [place, h]
  | cons y ys ih =>
    simp only [place]
    split
    · by_cases h : k = q <;> simp [h]
    · rename_i hky
      have e : k = y.1 := Std.LawfulEqOrd.eq_of_compare hky
      by_cases h : k = q
      · simp [h]
      · have h' : y.1 ≠ q := e ▸ h
        simp [h, h']
    · rename_i hky
      have ne : y.1 ≠ k := by
        rintro rfl
        simp at hky
      by_cases h : y.1 = q
      · have h' : k ≠ q := fun e => ne (h.trans e.symm)
        simp [h, h']
      · simp [h, ih]

/-- A written key gives the written value and every other key what it gave before. -/
@[simp] theorem get?_insert [DecidableEq α] [Std.TransOrd α] [Std.LawfulEqOrd α]
    (m : SortedMap α β) (k q : α) (v : β) :
    (m.insert k v).get? q = if k = q then some v else m.get? q :=
  find?_place k q v m.toList

@[simp] theorem get?_update [DecidableEq α] [Std.TransOrd α] [Std.LawfulEqOrd α]
    (m : SortedMap α β) (k q : α) (default : β) (f : β → β) :
    (m.update k default f).get? q =
      if k = q then some (f ((m.get? k).getD default)) else m.get? q :=
  get?_insert m k q _

theorem mem_keys_iff [DecidableEq α] {m : SortedMap α β} {k : α} :
    k ∈ m.keys ↔ m.contains k = true := by
  simp [keys, contains, get?, List.find?_isSome]

theorem contains_iff [DecidableEq α] {m : SortedMap α β} {k : α} :
    m.contains k = true ↔ ∃ v, m.get? k = some v :=
  Option.isSome_iff_exists

theorem not_contains_iff [DecidableEq α] {m : SortedMap α β} {k : α} :
    ¬m.contains k = true ↔ m.get? k = none := by
  rw [contains, Bool.not_eq_true, Option.isSome_eq_false_iff, Option.isNone_iff_eq_none]

section Entries

variable [DecidableEq α] [Std.LawfulEqOrd α]

theorem find?_eq_some_iff {l : List (α × β)}
    (h : l.Pairwise (fun a b => compare a.1 b.1 = .lt)) {k : α} {v : β} :
    (l.find? (fun e => decide (e.1 = k))).map (·.2) = some v ↔ (k, v) ∈ l := by
  induction l with
  | nil => simp
  | cons e es ih =>
    have ⟨he, hes⟩ := List.pairwise_cons.1 h
    by_cases hk : e.1 = k
    · -- No later entry has the key of the first.
      have hrest : (k, v) ∉ es := by
        intro hmem
        have hlt := he (k, v) hmem
        simp [hk] at hlt
      simp [hk, hrest, Prod.ext_iff, eq_comm]
    · simp [hk, ih hes, Prod.ext_iff, Ne.symm hk]

theorem mem_toList_iff {m : SortedMap α β} {k : α} {v : β} :
    (k, v) ∈ m.toList ↔ m.get? k = some v :=
  (find?_eq_some_iff m.ascending).symm

/-- Maps that give the same for every key are equal. -/
@[ext] theorem ext [Std.TransOrd α] {m n : SortedMap α β} (h : ∀ k, m.get? k = n.get? k) :
    m = n := by
  have hlists : m.toList = n.toList := by
    have hne {l : List (α × β)} (hl : l.Pairwise (fun a b => compare a.1 b.1 = .lt)) : l.Nodup := by
      refine hl.imp fun hlt heq => ?_
      simp [heq] at hlt
    refine List.Perm.eq_of_pairwise (fun a b _ _ hab hba => ?_) m.ascending n.ascending ?_
    · exact absurd hba (Std.OrientedCmp.not_lt_of_lt hab)
    · refine (List.perm_ext_iff_of_nodup (hne m.ascending) (hne n.ascending)).2 ?_
      rintro ⟨k, v⟩
      rw [mem_toList_iff, mem_toList_iff, h]
  cases m
  cases n
  cases hlists
  rfl

end Entries

end SortedMap

end GraphQuery
