import GraphQuery.Proofs.Pattern.Congruence
import GraphQuery.Proofs.Pattern.Expansion
import GraphQuery.Proofs.Pattern.Fixpoint

/-!
# Denials in a context

A pattern that stands beside another one is combined with it. Combination distributes over
alternatives, and what is denied falls into alternatives if it is a conjunction or a statement of
several units, and into further parts beside the context if it is a disjunction. So a denial can be
taken apart where it stands, up to the order of the conjunctions.
-/

namespace GraphQuery

namespace Statement

variable {s u : Statement}

/-- A denied statement is expanded to its denied units. -/
theorem expand_denied (hs : s.isNegative = false) :
    s.expand true = s.units.map fun u => [u.withPolarity .negative] := by
  rw [expand, if_pos (by rw [hs]; rfl), units_withPolarity, List.map_map]
  rfl

theorem expand_negated (hs : s.isNegative = false) : s.negated.expand false = s.expand true := by
  obtain ⟨var, polarity, properties⟩ := s
  cases polarity with
  | positive => rfl
  | negative => cases hs

/-- A unit is denied as it is. -/
theorem expand_denied_unit (hs : s.isNegative = false) (hu : u ∈ s.units) :
    u.expand true = [[u.withPolarity .negative]] := by
  have hpositive : u.isNegative = false := by
    rw [isNegative, polarity_eq_of_mem_units hu]
    exact hs
  rw [expand_denied hpositive, units_of_mem_units hu]
  rfl

end Statement

namespace Pattern

variable {c q : Pattern} {d : List Statement}

theorem expand_conjunction_pair (c q : Pattern) :
    (conjunction [c, q]).expand false = append (c.expand false) (q.expand false) := by
  rw [expand, if_neg Bool.false_ne_true, combinations, combinations, combinations, nil_append]

theorem mem_expand_conjunction_pair : d ∈ (conjunction [c, q]).expand false ↔
    ∃ front ∈ c.expand false, ∃ back ∈ q.expand false, front ++ back = d := by
  rw [expand_conjunction_pair, mem_append]

theorem mem_expand_disjunction {ps : List Pattern} :
    d ∈ (disjunction ps).expand false ↔ ∃ p ∈ ps, d ∈ p.expand false := by
  rw [expand, if_neg Bool.false_ne_true, mem_alternatives]

theorem mem_expand_denied_conjunction {ps : List Pattern} :
    d ∈ (negation (conjunction ps)).expand false ↔ ∃ p ∈ ps, d ∈ (negation p).expand false := by
  rw [expand, Bool.not_false, expand, if_pos rfl, mem_alternatives]
  rfl

/-- A context distributes over the alternatives of a pattern. -/
theorem normalForm_distributes (c q : Pattern) (rs : List Pattern)
    (h : ∀ d, d ∈ q.expand false ↔ ∃ r ∈ rs, d ∈ r.expand false) :
    ((conjunction [c, q]).normalForm ==
      (disjunction (rs.map fun r => conjunction [c, r])).normalForm) = true := by
  apply normalForm_beq_of_mem_iff
  intro d
  simp only [mem_expand_disjunction, List.mem_map, exists_exists_and_eq_and,
    mem_expand_conjunction_pair, h]
  constructor
  · rintro ⟨front, hfront, back, ⟨r, hr, hback⟩, hd⟩
    exact ⟨r, hr, front, hfront, back, hback, hd⟩
  · rintro ⟨r, hr, front, hfront, back, hback, hd⟩
    exact ⟨front, hfront, back, ⟨r, hr, hback⟩, hd⟩

theorem combinations_map_negation (fronts : List (List Statement)) (ps : List Pattern)
    (denied : Bool) :
    combinations fronts (ps.map negation) denied = combinations fronts ps !denied := by
  induction ps generalizing fronts with
  | nil => rfl
  | cons p ps ih => rw [List.map_cons, combinations, combinations, ih, expand]

/-- A denied disjunction beside a context is the denials of its parts beside the context, in the same
order. -/
theorem expand_denied_disjunction (c : Pattern) (ps : List Pattern) :
    (conjunction [c, negation (disjunction ps)]).expand false =
      (conjunction (c :: ps.map negation)).expand false := by
  have hdenied : (negation (disjunction ps)).expand false = combinations [[]] ps true := by
    rw [expand, Bool.not_false, expand, if_pos rfl]
  rw [expand_conjunction_pair, hdenied, expand, if_neg Bool.false_ne_true, combinations, nil_append,
    combinations_map_negation, combinations_eq_append (c.expand false), Bool.not_false]

/-- In every context a denied conjunction is as good as the alternatives of denying one of its parts, a
denied disjunction as denying all of them, and a denied statement, whether it is denied from outside or
is a denial itself, as the alternatives of denying one of its units. -/
theorem normalForm_denial_distributes (c : Pattern) (ps : List Pattern) (s : Statement)
    (hs : s.isNegative = false) :
    ((conjunction [c, negation (conjunction ps)]).normalForm ==
      (disjunction (ps.map fun p => conjunction [c, negation p])).normalForm) = true ∧
    ((conjunction [c, negation (disjunction ps)]).normalForm ==
      (conjunction (c :: ps.map negation)).normalForm) = true ∧
    ((conjunction [c, negation (statement s)]).normalForm ==
      (disjunction (s.units.map fun u => conjunction [c, negation (statement u)])).normalForm) =
        true ∧
    ((conjunction [c, statement s.negated]).normalForm ==
      (disjunction (s.units.map fun u => conjunction [c, negation (statement u)])).normalForm) =
        true := by
  have hunits (d : List Statement) : d ∈ s.expand true ↔
      ∃ r ∈ s.units.map fun u => negation (statement u), d ∈ r.expand false := by
    rw [Statement.expand_denied hs]
    simp only [List.mem_map, exists_exists_and_eq_and]
    refine exists_congr fun u => and_congr_right fun hu => ?_
    change _ ↔ d ∈ u.expand true
    rw [Statement.expand_denied_unit hs hu, List.mem_singleton, eq_comm]
  refine ⟨?_, ?_, ?_, ?_⟩
  · have h := normalForm_distributes c (negation (conjunction ps)) (ps.map negation) fun d => by
      simp only [mem_expand_denied_conjunction, List.mem_map, exists_exists_and_eq_and]
    rwa [List.map_map] at h
  · rw [normalForm, expand_denied_disjunction]
    exact BEq.rfl
  · have h := normalForm_distributes c (negation (statement s)) _ hunits
    rwa [List.map_map] at h
  · have h := normalForm_distributes c (statement s.negated) _ fun d => by
      rw [expand, Statement.expand_negated hs, hunits]
    rwa [List.map_map] at h

/-- Two alternatives as the context of a denied marriage, which has two units: the players with their
type, and that the marriage is no other one. -/
theorem normalForm_denial_distributes_marriage :
    let named (name : String) : Pattern := .statement ⟨.named "x", .positive, [.label ⟨name⟩]⟩
    let marriage : Statement := ⟨.named "r", .positive,
      [.isa (.labelled (.generated 0) ⟨"marriage"⟩) false, .neq (.named "s"),
        .relation [⟨none, .named "x"⟩, ⟨none, .named "y"⟩]]⟩
    let c : Pattern := .disjunction [named "a", named "b"]
    let ps : List Pattern := [.disjunction [named "c", named "d"], named "e"]
    marriage.isNegative = false ∧ marriage.units.length = 2 ∧
    ((conjunction [c, negation (conjunction ps)]).normalForm ==
      (disjunction (ps.map fun p => conjunction [c, negation p])).normalForm) = true ∧
    ((conjunction [c, negation (disjunction ps)]).normalForm ==
      (conjunction (c :: ps.map negation)).normalForm) = true ∧
    ((conjunction [c, negation (statement marriage)]).normalForm ==
      (disjunction (marriage.units.map fun u =>
        conjunction [c, negation (statement u)])).normalForm) = true ∧
    ((conjunction [c, statement marriage.negated]).normalForm ==
      (disjunction (marriage.units.map fun u =>
        conjunction [c, negation (statement u)])).normalForm) = true := by
  intro named marriage c ps
  have hpositive : marriage.isNegative = false := by decide
  exact ⟨hpositive, by decide, normalForm_denial_distributes c ps marriage hpositive⟩

end Pattern

end GraphQuery
