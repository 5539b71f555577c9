import GraphQuery.Proofs.Collection.Distinct
import GraphQuery.Proofs.Traversal.Plan
import Mathlib.Data.Prod.Lex

/-!
# The order of a plan

An ordered plan is greedy: at every place stands the least of the constraints that may be taken
there, by cost and then by the order of emission. This leaves one order only. The places in a plan
break ties in the same way as those in the list from which it was made, so that a plan that is made
of a plan is that plan.
-/

namespace GraphQuery

/-- That two constraints have a variable in common. -/
def FragmentSet.Shares (s t : FragmentSet) : Prop := ∃ v ∈ s.vars, v ∈ t.vars

namespace TraversalPlan

/-- That a constraint shares a variable with one of those that have been taken. -/
def Reached (taken : List FragmentSet) (s : FragmentSet) : Prop := ∃ t ∈ taken, t.Shares s

/-- That a constraint may be taken next: it is reached, or none of those that are left is. -/
def Eligible (taken left : List FragmentSet) (s : FragmentSet) : Prop :=
  s ∈ left ∧ (Reached taken s ∨ ∀ t ∈ left, ¬ Reached taken t)

/-- The cost of a constraint and then its place in the order of emission. -/
def rank (emitted : List FragmentSet) (s : FragmentSet) : ℕ ×ₗ ℕ := toLex (s.cost, emitted.idxOf s)

/-- That a constraint is the one to take next. -/
structure IsNext (emitted taken left : List FragmentSet) (s : FragmentSet) : Prop where
  eligible : Eligible taken left s
  least : ∀ t, Eligible taken left t → rank emitted s ≤ rank emitted t

/-- That constraints follow on those that have been taken, each of them being the one to take next
in its turn. -/
def Greedy (emitted taken plan : List FragmentSet) : Prop :=
  ∀ front s back, plan = front ++ s :: back → IsNext emitted (taken ++ front) (s :: back) s

variable {emitted taken left : List FragmentSet} {s t : FragmentSet}

theorem reached_concat : Reached (taken ++ [t]) s ↔ Reached taken s ∨ t.Shares s := by
  simp [Reached, or_and_right, exists_or]

theorem rank_le_rank :
    rank emitted s ≤ rank emitted t ↔
      s.cost < t.cost ∨ s.cost = t.cost ∧ emitted.idxOf s ≤ emitted.idxOf t :=
  Prod.Lex.toLex_le_toLex

/-- What is left matters up to its order. -/
theorem IsNext.of_mem_iff {left' : List FragmentSet} (h : IsNext emitted taken left s)
    (hleft : ∀ t, t ∈ left ↔ t ∈ left') : IsNext emitted taken left' s := by
  have heligible (t : FragmentSet) : Eligible taken left t ↔ Eligible taken left' t := by
    simp only [Eligible, hleft]
  exact ⟨(heligible s).1 h.eligible, fun t ht => h.least t ((heligible t).2 ht)⟩

theorem greedy_nil : Greedy emitted taken [] := by
  intro front s back h
  simp at h

theorem greedy_cons {plan : List FragmentSet} :
    Greedy emitted taken (s :: plan) ↔
      IsNext emitted taken (s :: plan) s ∧ Greedy emitted (taken ++ [s]) plan := by
  constructor
  · intro h
    refine ⟨by simpa using h [] s plan rfl, fun front t back hplan => ?_⟩
    simpa using h (s :: front) t back (by rw [hplan, List.cons_append])
  · rintro ⟨hs, hplan⟩ front t back h
    cases front with
    | nil =>
      obtain ⟨rfl, rfl⟩ := List.cons.inj h
      simpa using hs
    | cons u front =>
      obtain ⟨rfl, rfl⟩ := List.cons.inj h
      simpa using hplan front t back rfl

/-- What the candidates are while a plan is made: they are left in the order of emission, and each
knows whether it is reached. -/
structure Tracks (emitted taken : List FragmentSet) (remaining : List Candidate) : Prop where
  sorted : (remaining.map (·.set)).Pairwise fun s t => emitted.idxOf s < emitted.idxOf t
  connected : ∀ c ∈ remaining, c.connected = true ↔ Reached taken c.set

theorem Candidate.connected_reach {c : Candidate} :
    (c.reach s.vars).connected = true ↔ c.connected = true ∨ s.Shares c.set := by
  simp only [reach, Bool.or_eq_true, List.any_eq_true, List.contains_iff_mem, FragmentSet.Shares,
    and_comm]

namespace Tracks

variable {remaining : List Candidate}

theorem start (sets : List FragmentSet) :
    Tracks sets [] (sets.eraseDups.map (Candidate.mk · false)) where
  sorted := by
    rw [map_set_mk]
    exact pairwise_idxOf_eraseDups sets
  connected := by
    intro c hc
    obtain ⟨s, -, rfl⟩ := List.mem_map.1 hc
    simp [Reached]

theorem mem_choices (h : Tracks emitted taken remaining) :
    s ∈ choices remaining ↔ Eligible taken (remaining.map (·.set)) s := by
  rw [choices, Eligible]
  split
  case isTrue hnone =>
    have hunreached : ∀ t ∈ remaining.map (·.set), ¬ Reached taken t := by
      rw [List.forall_mem_map]
      intro c hc hreached
      have hmem : c ∈ remaining.filter (·.connected) :=
        List.mem_filter.2 ⟨hc, (h.connected c hc).2 hreached⟩
      rw [List.isEmpty_iff.1 hnone] at hmem
      cases hmem
    exact ⟨fun hs => ⟨hs, .inr hunreached⟩, And.left⟩
  case isFalse hsome =>
    rw [List.isEmpty_iff] at hsome
    obtain ⟨c, hc⟩ := List.exists_mem_of_ne_nil _ hsome
    obtain ⟨hc, hconnected⟩ := List.mem_filter.1 hc
    constructor
    · intro hs
      obtain ⟨d, hd, rfl⟩ := List.mem_map.1 hs
      obtain ⟨hd, hdconnected⟩ := List.mem_filter.1 hd
      exact ⟨List.mem_map_of_mem hd, .inl ((h.connected d hd).1 hdconnected)⟩
    · rintro ⟨hs, hreached⟩
      obtain ⟨d, hd, rfl⟩ := List.mem_map.1 hs
      have hreached : Reached taken d.set := by
        refine hreached.resolve_right fun hnone => ?_
        exact hnone _ (List.mem_map_of_mem hc) ((h.connected c hc).1 hconnected)
      exact List.mem_map_of_mem (List.mem_filter.2 ⟨hd, (h.connected d hd).2 hreached⟩)

/-- What a step takes is the one to take next. -/
theorem isNext (h : Tracks emitted taken remaining) (hs : cheapest? (choices remaining) = some s) :
    IsNext emitted taken (remaining.map (·.set)) s := by
  rw [cheapest?_eq_argmin] at hs
  have hmem : s ∈ choices remaining := List.argmin_mem hs
  refine ⟨h.mem_choices.1 hmem, fun t ht => rank_le_rank.2 ?_⟩
  have htmem : t ∈ choices remaining := h.mem_choices.2 ht
  have hcost : s.cost ≤ t.cost := List.le_of_mem_argmin htmem hs
  rcases Nat.lt_or_eq_of_le hcost with hlt | heq
  · exact .inl hlt
  · have hfirst := List.index_of_argmin hs htmem heq.ge
    have hsorted := h.sorted.sublist (choices_sublist remaining)
    exact .inr ⟨heq, le_of_idxOf_le hsorted hmem htmem hfirst⟩

/-- A step leaves candidates of the same kind. -/
theorem without (h : Tracks emitted taken remaining) (s : FragmentSet) :
    Tracks emitted (taken ++ [s]) (without s remaining) where
  sorted := by
    rw [map_set_without]
    exact h.sorted.sublist List.erase_sublist
  connected := by
    intro c hc
    obtain ⟨d, hd, rfl⟩ := List.mem_map.1 hc
    have hconnected := h.connected d (List.eraseP_subset hd)
    rw [Candidate.connected_reach, hconnected, ← reached_concat]
    rfl

theorem greedy (h : Tracks emitted taken remaining) :
    Greedy emitted taken (order remaining.length remaining) := by
  induction hn : remaining.length generalizing remaining taken with
  | zero => exact greedy_nil
  | succ n ih =>
    obtain ⟨s, hs⟩ := exists_cheapest? (List.ne_nil_of_length_eq_add_one hn)
    have hlength := length_without (mem_of_cheapest?_choices hs)
    have hperm := order_perm remaining
    rw [hn, order_succ hs] at hperm
    rw [order_succ hs, greedy_cons]
    exact ⟨(h.isNext hs).of_mem_iff fun t => hperm.mem_iff.symm, ih (h.without s) (by omega)⟩

end Tracks

theorem greedy_ofSets (sets : List FragmentSet) : Greedy sets [] (ofSets true sets).sets := by
  simpa [ofSets] using (Tracks.start sets).greedy

theorem IsNext.eq (hs : IsNext emitted taken left s) (ht : IsNext emitted taken left t)
    (hmem : s ∈ emitted) : s = t := by
  have hrank := le_antisymm (hs.least t ht.eligible) (ht.least s hs.eligible)
  have hplace : emitted.idxOf s = emitted.idxOf t := (Prod.mk.inj (toLex_inj.1 hrank)).2
  exact (List.idxOf_inj hmem).1 hplace

theorem Greedy.eq_of_perm {plan plan' : List FragmentSet} (h : Greedy emitted taken plan)
    (h' : Greedy emitted taken plan') (hperm : plan.Perm plan') (hmem : plan ⊆ emitted) :
    plan = plan' := by
  induction plan generalizing taken plan' with
  | nil => exact hperm.nil_eq
  | cons s plan ih =>
    obtain ⟨t, plan', rfl⟩ := List.exists_cons_of_ne_nil fun hnil =>
      List.cons_ne_nil s plan (List.perm_nil.1 (hnil ▸ hperm))
    obtain ⟨hs, h⟩ := greedy_cons.1 h
    obtain ⟨ht, h'⟩ := greedy_cons.1 h'
    obtain ⟨hsmem, hmem⟩ := List.cons_subset.1 hmem
    obtain rfl : s = t := hs.eq (ht.of_mem_iff fun u => hperm.mem_iff.symm) hsmem
    rw [ih h h' (List.perm_cons s |>.1 hperm) hmem]

/-- The places in the plan break ties as those in the order of emission do: of what may be taken
next, what is taken comes first in the plan. -/
theorem Greedy.self {plan : List FragmentSet} (h : Greedy emitted [] plan) (hnodup : plan.Nodup) :
    Greedy plan [] plan := by
  rintro front s back rfl
  have hs := h front s back rfl
  refine ⟨hs.eligible, fun t ht => rank_le_rank.2 ?_⟩
  rcases rank_le_rank.1 (hs.least t ht) with hlt | ⟨heq, -⟩
  · exact .inl hlt
  · have hfront {u : FragmentSet} (hu : u ∈ s :: back) : u ∉ front := fun hmem =>
      (List.nodup_append.1 hnodup).2.2 u hmem u hu rfl
    refine .inr ⟨heq, ?_⟩
    rw [List.idxOf_append_of_notMem (hfront List.mem_cons_self),
      List.idxOf_append_of_notMem (hfront ht.1), List.idxOf_cons_self]
    exact Nat.le_add_right _ _

theorem nodup_sets (ordered : Bool) (sets : List FragmentSet) :
    (ofSets ordered sets).sets.Nodup :=
  (ofSets_perm ordered sets).nodup_iff.2 (nodup_eraseDups sets)

/-- A plan that is made of the constraints of a plan, in their order, is the same plan. -/
theorem ofSets_ofSets (ordered : Bool) (sets : List FragmentSet) :
    ofSets ordered (ofSets ordered sets).sets = ofSets ordered sets := by
  have hnodup := nodup_sets ordered sets
  have hdistinct : (ofSets ordered sets).sets.eraseDups = (ofSets ordered sets).sets :=
    Distinct.eraseDups_eq_self (hnodup.imp fun hne => beq_false_of_ne hne.symm)
  cases ordered with
  | false => rw [ofSets, if_neg Bool.false_ne_true, hdistinct]
  | true =>
    have hperm := ofSets_perm true (ofSets true sets).sets
    rw [hdistinct] at hperm
    have hagain := greedy_ofSets (ofSets true sets).sets
    have hplan := (greedy_ofSets sets).self hnodup
    exact congrArg mk (hagain.eq_of_perm hplan hperm hperm.subset)

end TraversalPlan

end GraphQuery
