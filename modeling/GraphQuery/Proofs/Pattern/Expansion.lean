import GraphQuery.Pattern.NormalForm
import GraphQuery.Proofs.Pattern.Meaning
import Mathlib.Algebra.GroupWithZero.Nat

/-!
# The size of an expansion

Alternatives add up and combinations multiply: how many conjunctions a list of patterns expands to
is the sum or the product of how many each of them does.
-/

namespace GraphQuery.Pattern

variable {denied : Bool}

/-- The number of conjunctions of an asserted or denied pattern before equal ones collapse. -/
def width (p : Pattern) (denied : Bool) : Nat := (p.expand denied).length

theorem length_append (fronts backs : List (List Statement)) :
    (append fronts backs).length = fronts.length * backs.length := by
  rw [append, List.length_flatMap]
  simp [List.map_const']

theorem length_alternatives (ps : List Pattern) :
    (alternatives ps denied).length = (ps.map (·.width denied)).sum := by
  induction ps with
  | nil => rfl
  | cons p ps ih => rw [alternatives, List.length_append, ih, List.map_cons, List.sum_cons, width]

theorem length_combinations (fronts : List (List Statement)) (ps : List Pattern) :
    (combinations fronts ps denied).length = fronts.length * (ps.map (·.width denied)).prod := by
  induction ps generalizing fronts with
  | nil => simp [combinations]
  | cons p ps ih =>
    rw [combinations, ih, length_append, List.map_cons, List.prod_cons, width, Nat.mul_assoc]

theorem combinations_append (fronts : List (List Statement)) (ps qs : List Pattern) :
    combinations fronts (ps ++ qs) denied =
      combinations (combinations fronts ps denied) qs denied := by
  induction ps generalizing fronts with
  | nil => rfl
  | cons p ps ih => rw [List.cons_append, combinations, ih, combinations]

theorem nil_append (backs : List (List Statement)) : append [[]] backs = backs := by
  simp [append]

theorem append_nil (fronts : List (List Statement)) : append fronts [[]] = fronts := by
  simp [append]

theorem append_assoc (fronts middles backs : List (List Statement)) :
    append (append fronts middles) backs = append fronts (append middles backs) := by
  simp only [append, List.flatMap_assoc, List.flatMap_map, List.map_flatMap, List.map_map,
    Function.comp_def, List.append_assoc]

/-- What is combined can be combined by itself and then appended to what comes before. -/
theorem combinations_eq_append (fronts : List (List Statement)) (ps : List Pattern) :
    combinations fronts ps denied = append fronts (combinations [[]] ps denied) := by
  induction ps generalizing fronts with
  | nil => rw [combinations, combinations, append_nil]
  | cons p ps ih =>
    rw [combinations, combinations, ih, ih (append [[]] _), append_assoc, nil_append]

/-- Statements that expand to themselves are appended as they are. -/
theorem combinations_statements {ss : List Statement} (h : ∀ s ∈ ss, s.expand denied = [[s]])
    (front : List Statement) : combinations [front] (ss.map .statement) denied = [front ++ ss] := by
  induction ss generalizing front with
  | nil => simp [combinations]
  | cons s ss ih =>
    obtain ⟨hs, hss⟩ := List.forall_mem_cons.1 h
    rw [List.map_cons, combinations, expand, hs]
    simpa [append] using ih hss (front ++ [s])

end GraphQuery.Pattern
