/-!
# Picks

The ways to take one member out of a list, which a search goes through in turn.
-/

namespace GraphQuery

/-- Every member of a list in order, with the members that are left when it is taken out. -/
def picks {α : Type} : List α → List (α × List α)
  | [] => []
  | x :: xs => (x, xs) :: (picks xs).map fun pick => (pick.1, x :: pick.2)

theorem perm_of_mem_picks {α : Type} {l rest : List α} {x : α} (h : (x, rest) ∈ picks l) :
    (x :: rest).Perm l := by
  induction l generalizing x rest with
  | nil => cases h
  | cons y ys ih =>
    rcases List.mem_cons.1 h with h | h
    · cases h
      exact .refl _
    · obtain ⟨pick, hp, he⟩ := List.mem_map.1 h
      cases he
      exact (List.Perm.swap ..).trans ((ih hp).cons y)

theorem length_of_mem_picks {α : Type} {l rest : List α} {x : α} (h : (x, rest) ∈ picks l) :
    rest.length + 1 = l.length :=
  (perm_of_mem_picks h).length_eq

theorem mem_picks {α : Type} (front back : List α) (x : α) :
    (x, front ++ back) ∈ picks (front ++ x :: back) := by
  induction front with
  | nil => exact List.mem_cons_self
  | cons y front ih => exact List.mem_cons_of_mem _ (List.mem_map.2 ⟨_, ih, rfl⟩)

theorem picks_map {α β : Type} (f : α → β) (l : List α) :
    picks (l.map f) = (picks l).map fun pick => (f pick.1, pick.2.map f) := by
  induction l with
  | nil => rfl
  | cons x xs ih =>
    rw [List.map_cons, picks, picks, ih, List.map_cons, List.map_map, List.map_map]
    rfl

/-- Without repetitions, what is left when a member is picked is the list without it. -/
theorem picks_of_nodup {α : Type} [DecidableEq α] {l : List α} (h : l.Nodup) :
    picks l = l.map fun x => (x, l.erase x) := by
  induction l with
  | nil => rfl
  | cons x xs ih =>
    obtain ⟨hx, hxs⟩ := List.nodup_cons.1 h
    rw [picks, ih hxs, List.map_map, List.map_cons, List.erase_cons_head, List.cons.injEq]
    refine ⟨rfl, ?_⟩
    apply List.map_congr_left
    intro y hy
    have hne : x ≠ y := fun hxy => hx (hxy ▸ hy)
    rw [Function.comp_apply, List.erase_cons_tail (by simpa using hne)]

end GraphQuery
