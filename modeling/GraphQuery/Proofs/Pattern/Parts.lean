import GraphQuery.Pattern.NormalForm
import GraphQuery.Proofs.Collection.Distinct
import GraphQuery.Proofs.Pattern.Meaning
import GraphQuery.Proofs.Traversal.Meaning

/-!
# The parts of a normal form

A statement of a normal form says some of what a statement of the pattern says of the same variable.
So it holds where that statement does, and mentions no other variables.
-/

namespace GraphQuery

/-- The variables that a conjunction mentions at any depth. -/
def Conjunction.vars (c : Conjunction) : List Variable := c.toList.flatMap (·.allVars)

/-- That a statement says some of what another says, of the same variable. -/
structure Statement.IsPart (part whole : Statement) : Prop where
  var : part.var = whole.var
  properties : part.properties ⊆ whole.properties

theorem Property.subset_of_mem_relationUnits {pending : Option Property} {ps unit : List Property}
    (h : unit ∈ relationUnits pending ps) : unit ⊆ pending.toList ++ ps := by
  intro q hq
  have hflatten : q ∈ (relationUnits pending ps).flatten := List.mem_flatten.2 ⟨unit, h, hq⟩
  rw [(flatten_relationUnits pending ps).mem_iff] at hflatten
  rcases List.mem_append.1 hflatten with hps | hpending
  · exact List.mem_append_right _ (List.mem_filter.1 hps).1
  · split at hpending
    · exact List.mem_append_left _ hpending
    · cases hpending

namespace Statement

theorem isPart_of_mem_units {s u : Statement} (h : u ∈ s.units) : u.IsPart s := by
  refine ⟨var_eq_of_mem_units h, ?_⟩
  obtain ⟨unit, hunit, rfl⟩ := List.mem_map.1 h
  dsimp only
  split at hunit
  · rw [List.mem_singleton.1 hunit]
    exact List.Subset.refl _
  · split at hunit
    · intro q hq
      rcases List.mem_append.1 (Property.subset_of_mem_relationUnits hunit hq) with hq | hq
      · exact List.mem_of_find?_eq_some (Option.mem_toList.1 hq)
      · exact hq
    · obtain ⟨q, hq, rfl⟩ := List.mem_map.1 hunit
      simpa using hq

theorem inner_eq (s : Statement) : s.inner = s.properties.flatMap (·.inner) := by
  obtain ⟨_, _, properties⟩ := s
  rw [inner, Property.innerOf_eq_flatMap]

theorem IsPart.inner_subset {part whole : Statement} (h : part.IsPart whole) :
    part.inner ⊆ whole.inner := by
  intro t ht
  rw [inner_eq, List.mem_flatMap] at ht ⊢
  obtain ⟨p, hp, ht⟩ := ht
  exact ⟨p, h.properties hp, ht⟩

theorem IsPart.allVars_subset {part whole : Statement} (h : part.IsPart whole) :
    part.allVars ⊆ whole.allVars := by
  intro v hv
  rw [allVars, withInner, List.flatMap_cons, List.mem_append] at hv ⊢
  rcases hv with hv | hv
  · left
    rw [mem_vars, ← h.var]
    obtain hvar | ⟨p, hp, hv⟩ := mem_vars.1 hv
    · exact .inl hvar
    · exact .inr ⟨p, h.properties hp, hv⟩
  · right
    obtain ⟨t, ht, hv⟩ := List.mem_flatMap.1 hv
    exact List.mem_flatMap.2 ⟨t, h.inner_subset ht, hv⟩

theorem IsPart.holds {U : Type*} {g : Graph U} {a : Variable → U} {part whole : Statement}
    (h : part.IsPart whole) (hwhole : whole.Holds g a) : part.Holds g a := by
  rw [Holds, withInner, List.forall_mem_cons] at hwhole ⊢
  refine ⟨fun p hp => ?_, fun t ht => hwhole.2 t (h.inner_subset ht)⟩
  rw [h.var]
  exact hwhole.1 p (h.properties hp)

theorem isPart_of_mem_expand {s part : Statement} {denied : Bool} {c : List Statement}
    (hc : c ∈ s.expand denied) (hpart : part ∈ c) : part.IsPart s := by
  rw [expand] at hc
  split at hc
  · obtain ⟨u, hu, rfl⟩ := List.mem_map.1 hc
    rw [List.mem_singleton] at hpart
    subst hpart
    have h := isPart_of_mem_units hu
    exact ⟨h.var, h.properties⟩
  · rw [List.mem_singleton] at hc
    subst hc
    rw [List.mem_singleton] at hpart
    subst hpart
    exact ⟨rfl, List.Subset.refl _⟩

end Statement

namespace Pattern

theorem mem_alternatives {ps : List Pattern} {denied : Bool} {c : List Statement} :
    c ∈ alternatives ps denied ↔ ∃ p ∈ ps, c ∈ p.expand denied := by
  induction ps with
  | nil => simp [alternatives]
  | cons p ps ih => simp [alternatives, ih]

theorem mem_append {fronts backs : List (List Statement)} {c : List Statement} :
    c ∈ append fronts backs ↔ ∃ front ∈ fronts, ∃ back ∈ backs, front ++ back = c := by
  simp only [append, List.mem_flatMap, List.mem_map]

/-- Every statement of a combination comes from a front or from a conjunction of one of the
patterns. -/
theorem mem_of_mem_combinations {ps : List Pattern} {denied : Bool} {fronts : List (List Statement)}
    {c : List Statement} {s : Statement} (hc : c ∈ combinations fronts ps denied) (hs : s ∈ c) :
    (∃ front ∈ fronts, s ∈ front) ∨ ∃ p ∈ ps, ∃ d ∈ p.expand denied, s ∈ d := by
  induction ps generalizing fronts with
  | nil => exact .inl ⟨c, hc, hs⟩
  | cons p ps ih =>
    rw [combinations] at hc
    rcases ih hc with ⟨extended, hextended, hs⟩ | ⟨q, hq, d, hd, hs⟩
    · obtain ⟨front, hfront, back, hback, rfl⟩ := mem_append.1 hextended
      rcases List.mem_append.1 hs with hs | hs
      · exact .inl ⟨front, hfront, hs⟩
      · exact .inr ⟨p, List.mem_cons_self, back, hback, hs⟩
    · exact .inr ⟨q, List.mem_cons_of_mem _ hq, d, hd, hs⟩

/-- Every statement of a conjunction that a pattern expands to comes from a statement of the
pattern. -/
theorem exists_statement_of_mem_expand {p : Pattern} {denied : Bool} {c : List Statement}
    {s : Statement} (hc : c ∈ p.expand denied) (hs : s ∈ c) :
    ∃ whole ∈ p.statements, ∃ denied, ∃ d ∈ whole.expand denied, s ∈ d := by
  have hparts {parts : List Pattern} {denied : Bool}
      (ih : ∀ p ∈ parts, ∀ {denied c}, c ∈ p.expand denied → s ∈ c →
        ∃ whole ∈ p.statements, ∃ denied, ∃ d ∈ whole.expand denied, s ∈ d)
      (h : ∃ p ∈ parts, ∃ d ∈ p.expand denied, s ∈ d) :
      ∃ whole ∈ statementsOf parts, ∃ denied, ∃ d ∈ whole.expand denied, s ∈ d := by
    obtain ⟨p, hp, d, hd, hs⟩ := h
    obtain ⟨whole, hwhole, hfrom⟩ := ih p hp hd hs
    rw [statementsOf_eq_flatMap]
    exact ⟨whole, List.mem_flatMap.2 ⟨p, hp, hwhole⟩, hfrom⟩
  have halternatives {parts : List Pattern} {denied : Bool} {c : List Statement} (hs : s ∈ c)
      (hc : c ∈ alternatives parts denied) : ∃ p ∈ parts, ∃ d ∈ p.expand denied, s ∈ d := by
    obtain ⟨p, hp, hc⟩ := mem_alternatives.1 hc
    exact ⟨p, hp, c, hc, hs⟩
  have hcombinations {parts : List Pattern} {denied : Bool} {c : List Statement} (hs : s ∈ c)
      (hc : c ∈ combinations [[]] parts denied) : ∃ p ∈ parts, ∃ d ∈ p.expand denied, s ∈ d := by
    simpa using mem_of_mem_combinations hc hs
  induction p using Pattern.induction generalizing denied c with
  | statement whole => exact ⟨whole, List.mem_cons_self, denied, c, hc, hs⟩
  | negation part ih => exact ih hc hs
  | conjunction parts ih =>
    rw [statements]
    rw [expand] at hc
    split at hc
    · exact hparts ih (halternatives hs hc)
    · exact hparts ih (hcombinations hs hc)
  | disjunction parts ih =>
    rw [statements]
    rw [expand] at hc
    split at hc
    · exact hparts ih (hcombinations hs hc)
    · exact hparts ih (halternatives hs hc)

theorem exists_statement_of_mem_normalForm {p : Pattern} {c : Conjunction} {s : Statement}
    (hc : c ∈ p.normalForm.toList) (hs : s ∈ c.toList) :
    ∃ whole ∈ p.statements, ∃ denied, ∃ d ∈ whole.expand denied, s ∈ d := by
  have hc : c ∈ (p.expand false).map .ofList := Distinct.mem_of_mem_eraseDups hc
  obtain ⟨d, hd, rfl⟩ := List.mem_map.1 hc
  have hs : s ∈ d := Distinct.mem_of_mem_eraseDups hs
  exact exists_statement_of_mem_expand hd hs

theorem exists_isPart_of_mem_normalForm {p : Pattern} {c : Conjunction} {s : Statement}
    (hc : c ∈ p.normalForm.toList) (hs : s ∈ c.toList) :
    ∃ whole ∈ p.statements, s.IsPart whole := by
  obtain ⟨whole, hwhole, denied, d, hd, hs⟩ := exists_statement_of_mem_normalForm hc hs
  exact ⟨whole, hwhole, Statement.isPart_of_mem_expand hd hs⟩

end Pattern

end GraphQuery
