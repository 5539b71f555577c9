import GraphQuery.Insert.Plan
import GraphQuery.Proofs.Insert.Schedule

/-!
# What plans exist

Writers have a plan exactly when everything that they need is supplied and none waits for itself,
and the plan puts them in the least order in which none comes before one that it waits for
(`ofWriters_topological`).
-/

namespace GraphQuery

namespace Writer

/-- The variable is bound beforehand or some writer helps to produce it. -/
def Supplied (writers : List Writer) (bound : SortedSet Variable) (v : Variable) : Prop :=
  v ∈ bound ∨ ∃ w ∈ writers, v ∈ w.produced

/-- The writer at place `i` requires a variable that is not bound beforehand and which the writer at
place `j` helps to produce. -/
def WaitsFor (writers : List Writer) (bound : SortedSet Variable) (i j : Nat) : Prop :=
  ∃ w p v, writers[i]? = some w ∧ writers[j]? = some p ∧
    v ∈ w.required ∧ v ∉ bound ∧ v ∈ p.produced

/-- An order of all writers by their places in which none comes before one that it waits for. -/
def Topological (writers : List Writer) (bound : SortedSet Variable) (order : List Nat) : Prop :=
  order.Perm (List.range writers.length) ∧
    ∀ front i back, order = front ++ i :: back → ∀ j, WaitsFor writers bound i j → j ∈ front

end Writer

open Writer

variable {writers : List Writer} {bound : SortedSet Variable}

namespace Producers

theorem mem_places {v : Variable} {j : Nat} :
    j ∈ (ofWriters writers).places v ↔ ∃ p, writers[j]? = some p ∧ v ∈ p.produced := by
  simp [places_ofWriters, List.mk_mem_zipIdx_iff_getElem?]

theorem supply_iff {v : Variable} :
    (ofWriters writers).supply bound v = true ↔ Supplied writers bound v := by
  have hplaces : (ofWriters writers).places v ≠ [] ↔ ∃ w ∈ writers, v ∈ w.produced := by
    constructor
    · intro h
      obtain ⟨j, hj⟩ := List.exists_mem_of_ne_nil _ h
      obtain ⟨w, hw, hv⟩ := mem_places.1 hj
      exact ⟨w, List.mem_of_getElem? hw, hv⟩
    · rintro ⟨w, hw, hv⟩
      obtain ⟨j, hj⟩ := List.mem_iff_getElem?.1 hw
      exact List.ne_nil_of_mem (mem_places.2 ⟨w, hj, hv⟩)
  simp [supply, Supplied, ← hplaces]

theorem length_dependencies (index : Producers) :
    (index.dependencies bound writers).length = writers.length :=
  List.length_map _

theorem dependsOn_iff {i j : Nat} :
    ((ofWriters writers).dependencies bound writers).dependsOn i j = true ↔
      WaitsFor writers bound i j := by
  rw [Dependencies.dependsOn, dependencies, List.getElem?_map, WaitsFor]
  cases writers[i]? with
  | none => simp
  | some w =>
    simp only [Option.map_some, decide_eq_true_iff, SortedSet.mem_ofList, List.mem_flatMap,
      List.mem_filter, mem_places, Option.some.injEq, exists_and_left, exists_eq_left']
    constructor
    · rintro ⟨v, ⟨hv, hbound⟩, p, hp, hproduced⟩
      exact ⟨p, hp, v, hv, hbound, hproduced⟩
    · rintro ⟨p, hp, v, hv, hbound, hproduced⟩
      exact ⟨v, ⟨hv, hbound⟩, p, hp, hproduced⟩

theorem closed_dependencies :
    Dependencies.Closed ((ofWriters writers).dependencies bound writers) := by
  intro i j h
  obtain ⟨w, p, v, -, hp, -⟩ := dependsOn_iff.1 h
  rw [length_dependencies]
  exact (List.getElem?_eq_some_iff.1 hp).1

theorem cyclic_dependencies_iff :
    Dependencies.Cyclic ((ofWriters writers).dependencies bound writers) ↔
      ∃ i, Relation.TransGen (WaitsFor writers bound) i i := by
  rw [Dependencies.Cyclic]
  simp only [dependsOn_iff]

theorem topological_iff {order : List Nat} :
    Topological writers bound order ↔
      Dependencies.Admissible ((ofWriters writers).dependencies bound writers) order ∧
        order.length = writers.length := by
  constructor
  · rintro ⟨hperm, horder⟩
    refine ⟨fun front i back e => ?_, by simpa using hperm.length_eq⟩
    have hnodup : (front ++ i :: back).Nodup := e ▸ hperm.nodup_iff.2 List.nodup_range
    have hi : i ∈ List.range writers.length := hperm.subset (by simp [e])
    refine ⟨by rwa [length_dependencies, ← List.mem_range], ?_, ?_⟩
    · exact fun hfront => List.disjoint_of_nodup_append hnodup hfront List.mem_cons_self
    · exact fun j hj => horder front i back e j (dependsOn_iff.1 hj)
  · rintro ⟨hadmissible, hlen⟩
    refine ⟨?_, fun front i back e j hj => ?_⟩
    · have hperm := hadmissible.perm_range (hlen.trans (length_dependencies _).symm)
      rwa [length_dependencies] at hperm
    · exact (hadmissible front i back e).2.2 j (dependsOn_iff.2 hj)

end Producers

namespace InsertPlan

theorem ofWriters_eq (writers : List Writer) (subjects : List Variable)
    (bound : SortedSet Variable) :
    ofWriters writers subjects bound =
      let producers := Producers.ofWriters writers
      let order := Schedule.orderOf (producers.dependencies bound writers)
      match subjects.find? (!producers.supply bound ·) with
      | some v => .error (.nothingToInsert v)
      | none =>
        match (writers.flatMap (·.required.toList)).find? (!producers.supply bound ·) with
        | some v => .error (.unboundRequirement v)
        | none =>
          if order.length < writers.length then
            .error (.dependencyCycle (unscheduled writers order).toList)
          else .ok ⟨writers, order, bound⟩ := by
  unfold ofWriters
  dsimp only
  cases subjects.find? (!(Producers.ofWriters writers).supply bound ·) with
  | some v => rfl
  | none =>
    cases (writers.flatMap (·.required.toList)).find?
      (!(Producers.ofWriters writers).supply bound ·) with
    | some v => rfl
    | none =>
      dsimp only
      split <;> rfl

theorem find?_missing_eq_none {vs : List Variable} :
    vs.find? (!(Producers.ofWriters writers).supply bound ·) = none ↔
      ∀ v ∈ vs, Supplied writers bound v := by
  simp [List.find?_eq_none, Producers.supply_iff]

theorem length_orderOf_lt_iff :
    (Schedule.orderOf ((Producers.ofWriters writers).dependencies bound writers)).length <
        writers.length ↔
      ∃ i, Relation.TransGen (WaitsFor writers bound) i i := by
  have hiff := Schedule.length_orderOf_eq_iff
    (@Producers.closed_dependencies writers bound)
  have hle := (Schedule.greedy_orderOf
    ((Producers.ofWriters writers).dependencies bound writers)).1.length_le
  rw [Producers.length_dependencies, Producers.cyclic_dependencies_iff] at hiff
  rw [Producers.length_dependencies] at hle
  rw [← not_iff_not, ← hiff]
  omega

theorem ofWriters_eq_ok_iff {subjects : List Variable} {plan : InsertPlan} :
    ofWriters writers subjects bound = .ok plan ↔
      ((∀ v ∈ subjects, Supplied writers bound v) ∧
        (∀ w ∈ writers, ∀ v ∈ w.required, Supplied writers bound v) ∧
        ∀ i, ¬ Relation.TransGen (WaitsFor writers bound) i i) ∧
      plan = ⟨writers,
        Schedule.orderOf ((Producers.ofWriters writers).dependencies bound writers), bound⟩ := by
  have hrequired : (∀ v ∈ writers.flatMap (·.required.toList), Supplied writers bound v) ↔
      ∀ w ∈ writers, ∀ v ∈ w.required, Supplied writers bound v := by
    simp only [List.mem_flatMap, forall_exists_index, and_imp]
    exact ⟨fun h w hw v hv => h v w hw hv, fun h v w hw hv => h w hw v hv⟩
  rw [ofWriters_eq, ← find?_missing_eq_none, ← hrequired, ← find?_missing_eq_none,
    ← not_exists, ← length_orderOf_lt_iff]
  dsimp only
  split
  · rename_i v hv
    simp [hv]
  · rename_i hsubjects
    split
    · rename_i v hv
      simp [hv]
    · rename_i hwriters
      split
      · rename_i hlt
        simp [hlt]
      · rename_i hle
        simp [hsubjects, hwriters, hle, eq_comm]

/-- A plan has the writers and bound variables that it was made for, in a topological order. -/
theorem topological_of_ofWriters {subjects : List Variable} {plan : InsertPlan}
    (h : ofWriters writers subjects bound = .ok plan) :
    plan.writers = writers ∧ plan.bound = bound ∧ Topological writers bound plan.order := by
  obtain ⟨⟨-, -, hcycle⟩, rfl⟩ := ofWriters_eq_ok_iff.1 h
  have hlen : ¬ _ < writers.length := mt length_orderOf_lt_iff.1 (not_exists.2 hcycle)
  have hgreedy := Schedule.greedy_orderOf
    ((Producers.ofWriters writers).dependencies bound writers)
  have hle := hgreedy.1.length_le
  rw [Producers.length_dependencies] at hle
  exact ⟨rfl, rfl, Producers.topological_iff.2
    ⟨hgreedy.1, Nat.le_antisymm hle (Nat.not_lt.1 hlen)⟩⟩

/-- Planning succeeds exactly when all subjects and requirements are supplied and no writer waits
for itself, through any number of others. The order is then the lexicographically least topological
one. On the way no writer is released that is not counted as waiting. -/
theorem ofWriters_topological (writers : List Writer) (subjects : List Variable)
    (bound : SortedSet Variable) :
    ((∃ plan, ofWriters writers subjects bound = .ok plan) ↔
      (∀ v ∈ subjects, Supplied writers bound v) ∧
      (∀ w ∈ writers, ∀ v ∈ w.required, Supplied writers bound v) ∧
      ∀ i, ¬ Relation.TransGen (WaitsFor writers bound) i i) ∧
    (∀ plan, ofWriters writers subjects bound = .ok plan →
      plan.writers = writers ∧ plan.bound = bound ∧ Topological writers bound plan.order ∧
      ∀ order, Topological writers bound order → plan.order ≤ order) ∧
    ∀ s job, Schedule.Releases ((Producers.ofWriters writers).dependencies bound writers) s job →
      ∃ count, s.waiting[job]? = some (count + 1) := by
  have hgreedy := Schedule.greedy_orderOf
    ((Producers.ofWriters writers).dependencies bound writers)
  refine ⟨?_, fun plan hplan => ?_, fun s job h => h.exists_waiting⟩
  · simp only [ofWriters_eq_ok_iff, exists_and_left, exists_eq, and_true]
  · obtain ⟨hwriters, hbound, htopological⟩ := topological_of_ofWriters hplan
    refine ⟨hwriters, hbound, htopological, fun order horder => ?_⟩
    obtain ⟨-, rfl⟩ := ofWriters_eq_ok_iff.1 hplan
    have ⟨hadmissible, hlength⟩ := Producers.topological_iff.1 horder
    have hle := hgreedy.1.length_le
    rw [Producers.length_dependencies] at hle
    exact hgreedy.le hadmissible (hle.trans hlength.ge)

theorem ordered_eq (plan : InsertPlan) :
    plan.ordered = plan.order.filterMap (plan.writers[·]?) := by
  simp [ordered]

theorem ordered_perm {plan : InsertPlan}
    (h : Topological plan.writers plan.bound plan.order) : plan.ordered.Perm plan.writers := by
  have hperm := h.1.filterMap (plan.writers[·]?)
  rwa [filterMap_getElem?_range, ← ordered_eq] at hperm

/-- No writer produces what an earlier one requires, nor does one produce what it requires itself. -/
theorem not_produced_after {plan : InsertPlan}
    (h : Topological plan.writers plan.bound plan.order) {front back : List Writer} {w : Writer}
    (hsplit : plan.ordered = front ++ w :: back) {v : Variable} (hv : v ∈ w.required)
    (hbound : v ∉ plan.bound) : ∀ p ∈ w :: back, v ∉ p.produced := by
  rw [ordered_eq] at hsplit
  obtain ⟨first, rest, horder, rfl, hrest⟩ := List.filterMap_eq_append_iff.1 hsplit
  obtain ⟨skipped, i, last, rfl, -, hi, rfl⟩ := List.filterMap_eq_cons_iff.1 hrest
  rw [← List.append_assoc] at horder
  have hnodup : ((first ++ skipped) ++ i :: last).Nodup :=
    horder ▸ h.1.nodup_iff.2 List.nodup_range
  intro p hp hproduced
  obtain ⟨j, hj, hplace⟩ : ∃ j ∈ i :: last, plan.writers[j]? = some p := by
    rcases List.mem_cons.1 hp with rfl | hp
    · exact ⟨i, List.mem_cons_self, hi⟩
    · obtain ⟨j, hj, hplace⟩ := List.mem_filterMap.1 hp
      exact ⟨j, List.mem_cons_of_mem _ hj, hplace⟩
  have hfirst := h.2 _ i last horder j ⟨w, p, v, hi, hplace, hv, hbound, hproduced⟩
  exact List.disjoint_of_nodup_append hnodup hfirst hj

end InsertPlan

end GraphQuery
