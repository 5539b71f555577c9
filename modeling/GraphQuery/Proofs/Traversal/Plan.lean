import GraphQuery.Traversal.Plan
import Mathlib.Data.List.MinMax

/-!
# Plans lose no constraint

A plan has the constraints for which it is made, each once, whether or not it orders them: what is
taken next is one of those that remain, and it is taken off them.
-/

namespace GraphQuery.TraversalPlan

theorem cheapest?_eq_argmin (ss : List FragmentSet) :
    cheapest? ss = ss.argmin FragmentSet.cost := by
  cases ss with
  | nil => rfl
  | cons s ss =>
    refine (List.foldl_hom some fun s t => ?_).symm
    rw [List.argAux, cheaper, apply_ite some]

theorem choices_sublist (remaining : List Candidate) :
    (choices remaining).Sublist (remaining.map (·.set)) := by
  rw [choices]
  split
  · exact .refl _
  · exact List.filter_sublist.map _

theorem mem_of_cheapest?_choices {s : FragmentSet} {remaining : List Candidate}
    (h : cheapest? (choices remaining) = some s) : s ∈ remaining.map (·.set) := by
  rw [cheapest?_eq_argmin] at h
  exact (choices_sublist remaining).subset (List.argmin_mem h)

theorem choices_ne_nil {remaining : List Candidate} (h : remaining ≠ []) :
    choices remaining ≠ [] := by
  rw [choices, Ne, List.map_eq_nil_iff]
  split
  · exact h
  · rename_i hconnected
    rwa [List.isEmpty_iff] at hconnected

theorem exists_cheapest? {remaining : List Candidate} (h : remaining ≠ []) :
    ∃ s, cheapest? (choices remaining) = some s := by
  obtain ⟨s, ss, hss⟩ := List.exists_cons_of_ne_nil (choices_ne_nil h)
  exact ⟨_, by rw [hss, cheapest?]⟩

/-- What remains after a constraint has been taken. -/
def without (s : FragmentSet) (remaining : List Candidate) : List Candidate :=
  (remaining.eraseP (·.set = s)).map (·.reach s.vars)

theorem map_set_without (s : FragmentSet) (remaining : List Candidate) :
    (without s remaining).map (·.set) = (remaining.map (·.set)).erase s := by
  have hreach : (without s remaining).map (·.set) =
      (remaining.eraseP (·.set = s)).map (·.set) := by
    simp [without, Function.comp_def, Candidate.reach]
  rw [hreach, List.erase_eq_eraseP, List.eraseP_map]
  congr 2
  funext c
  exact decide_eq_decide.2 eq_comm

theorem length_without {s : FragmentSet} {remaining : List Candidate}
    (h : s ∈ remaining.map (·.set)) : (without s remaining).length + 1 = remaining.length := by
  have hlength := congrArg List.length (map_set_without s remaining)
  rw [List.length_map, List.length_erase_of_mem h, List.length_map] at hlength
  have hpos := List.length_pos_of_mem h
  rw [List.length_map] at hpos
  omega

theorem order_succ {s : FragmentSet} {remaining : List Candidate}
    (h : cheapest? (choices remaining) = some s) (n : ℕ) :
    order (n + 1) remaining = s :: order n (without s remaining) := by
  rw [order, h, without]

/-- Every constraint that remains is taken in its turn. -/
theorem order_perm (remaining : List Candidate) :
    (order remaining.length remaining).Perm (remaining.map (·.set)) := by
  induction hn : remaining.length generalizing remaining with
  | zero => simp [order, List.length_eq_zero_iff.1 hn]
  | succ n ih =>
    obtain ⟨s, hs⟩ := exists_cheapest? (List.ne_nil_of_length_eq_add_one hn)
    have hmem := mem_of_cheapest?_choices hs
    have hrest := ih (without s remaining) (by have := length_without hmem; omega)
    rw [map_set_without] at hrest
    rw [order_succ hs]
    exact (hrest.cons s).trans (List.perm_cons_erase hmem).symm

theorem map_set_mk (connected : Bool) (sets : List FragmentSet) :
    (sets.map (Candidate.mk · connected)).map (·.set) = sets := by
  simp [Function.comp_def]

theorem ofSets_perm (ordered : Bool) (sets : List FragmentSet) :
    (ofSets ordered sets).sets.Perm sets.eraseDups := by
  cases ordered with
  | false => simp [ofSets]
  | true =>
    have horder := order_perm (sets.eraseDups.map (Candidate.mk · false))
    rw [map_set_mk, List.length_map] at horder
    simpa [ofSets] using horder

theorem mem_ofSets {ordered : Bool} {sets : List FragmentSet} {s : FragmentSet} :
    s ∈ (ofSets ordered sets).sets ↔ s ∈ sets := by
  rw [(ofSets_perm ordered sets).mem_iff, List.mem_eraseDups]

end GraphQuery.TraversalPlan
