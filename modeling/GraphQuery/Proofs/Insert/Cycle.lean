import GraphQuery.Proofs.Insert.Plan

/-!
# What reports of cycles say

Where writers have no plan since some wait for themselves, the report names the variables that are
left without their writers: the stuck ones, which wait for themselves or for such writers. All
others can be applied, one after the other (`ofWriters_dependencyCycle`).
-/

namespace GraphQuery

namespace Writer

/-- The writer at place `i` waits, through any number of others, for one that waits for itself; or
it is such a writer. -/
def Stuck (writers : List Writer) (bound : SortedSet Variable) (i : Nat) : Prop :=
  LeadsToCycle (WaitsFor writers bound) i

/-- An order of writers by their places in which none comes twice, or before one that it waits
for. -/
structure Applicable (writers : List Writer) (bound : SortedSet Variable) (order : List Nat) :
    Prop where
  nodup : order.Nodup
  lt_length : ∀ i ∈ order, i < writers.length
  mem_front : ∀ front i back, order = front ++ i :: back →
    ∀ j, WaitsFor writers bound i j → j ∈ front

end Writer

open Writer

variable {writers : List Writer} {bound : SortedSet Variable}

/-- What is waited for is produced. -/
theorem Writer.WaitsFor.exists_produced {i j : Nat} (h : WaitsFor writers bound i j) :
    ∃ p v, writers[j]? = some p ∧ v ∈ p.produced := by
  obtain ⟨w, p, v, -, hp, -, -, hv⟩ := h
  exact ⟨p, v, hp, hv⟩

namespace Producers

theorem leadsToCycle_iff {i : Nat} :
    LeadsToCycle (fun job other =>
      ((ofWriters writers).dependencies bound writers).dependsOn job other = true) i ↔
      Stuck writers bound i := by
  simp only [dependsOn_iff, Stuck]

theorem applicable_of_admissible {order : List Nat}
    (h : Dependencies.Admissible ((ofWriters writers).dependencies bound writers) order) :
    Applicable writers bound order where
  nodup := h.nodup
  lt_length i hi := by simpa only [length_dependencies] using h.lt_length hi
  mem_front front i back e j hj := (h front i back e).2.2 j (dependsOn_iff.2 hj)

/-- The writers that are scheduled are those that are not stuck. -/
theorem mem_orderOf_iff {i : Nat} :
    i ∈ Schedule.orderOf ((ofWriters writers).dependencies bound writers) ↔
      i < writers.length ∧ ¬ Stuck writers bound i := by
  rw [Schedule.mem_orderOf_iff closed_dependencies, leadsToCycle_iff, length_dependencies]

end Producers

namespace InsertPlan

theorem mem_unscheduled {order : List Nat} {v : Variable} :
    v ∈ unscheduled writers order ↔
      ∃ i p, writers[i]? = some p ∧ v ∈ p.produced ∧ i ∉ order := by
  simp only [unscheduled, SortedSet.mem_ofList, List.mem_flatMap, List.mem_filter, Prod.exists,
    List.mk_mem_zipIdx_iff_getElem?, decide_eq_true_iff]
  constructor
  · rintro ⟨p, i, ⟨hp, hi⟩, hv⟩
    exact ⟨i, p, hp, hv, hi⟩
  · rintro ⟨i, p, hp, hv, hi⟩
    exact ⟨p, i, ⟨hp, hi⟩, hv⟩

/-- A cycle is reported only where there is one, with the variables of the writers left over. -/
theorem eq_unscheduled_of_dependencyCycle {subjects vars : List Variable}
    (h : ofWriters writers subjects bound = .error (.dependencyCycle vars)) :
    (∃ i, Relation.TransGen (WaitsFor writers bound) i i) ∧
      vars = (unscheduled writers
        (Schedule.orderOf ((Producers.ofWriters writers).dependencies bound writers))).toList := by
  rw [ofWriters_eq] at h
  dsimp only at h
  split at h
  · cases h
  · split at h
    · cases h
    · split at h
      · rename_i hlt
        cases h
        exact ⟨length_orderOf_lt_iff.1 hlt, rfl⟩
      · cases h

/-- A report of a cycle is exact. It names, in ascending order, the variables that stuck writers
would help to produce, of which there are some; and the schedule comes to all other writers, each
after those that it waits for, so to all that help to produce a variable that is not named. -/
theorem ofWriters_dependencyCycle {subjects vars : List Variable}
    (h : ofWriters writers subjects bound = .error (.dependencyCycle vars)) :
    let order := Schedule.orderOf ((Producers.ofWriters writers).dependencies bound writers)
    vars ≠ [] ∧ vars.Pairwise (compare · · = .lt) ∧
      (∀ v, v ∈ vars ↔ ∃ i p, writers[i]? = some p ∧ v ∈ p.produced ∧ Stuck writers bound i) ∧
      Applicable writers bound order ∧
      (∀ i, i ∈ order ↔ i < writers.length ∧ ¬ Stuck writers bound i) ∧
      ∀ v, v ∉ vars → ∀ i p, writers[i]? = some p → v ∈ p.produced → i ∈ order := by
  intro order
  obtain ⟨⟨i, hcycle⟩, rfl⟩ := eq_unscheduled_of_dependencyCycle h
  have hmem (v : Variable) : v ∈ (unscheduled writers order).toList ↔
      ∃ i p, writers[i]? = some p ∧ v ∈ p.produced ∧ Stuck writers bound i := by
    refine mem_unscheduled.trans (exists₂_congr fun i p => and_congr_right fun hp =>
      and_congr_right fun _ => ?_)
    have hi : i < writers.length := (List.getElem?_eq_some_iff.1 hp).1
    rw [Producers.mem_orderOf_iff]
    simp [hi]
  refine ⟨?_, (unscheduled writers order).ascending, hmem, ?_, ?_, ?_⟩
  · -- On a cycle every writer is waited for.
    obtain ⟨j, hji, hij⟩ := Relation.TransGen.tail'_iff.1 hcycle
    obtain ⟨p, v, hp, hv⟩ := hij.exists_produced
    exact List.ne_nil_of_mem ((hmem v).2 ⟨i, p, hp, hv, .of_cycle hcycle⟩)
  · exact Producers.applicable_of_admissible (Schedule.greedy_orderOf _).1
  · exact fun i => Producers.mem_orderOf_iff
  · intro v hv i p hp hproduced
    by_contra hi
    exact hv (mem_unscheduled.2 ⟨i, p, hp, hproduced, hi⟩)

/-- Two types that are each a subtype of the other, one of their instances, the owner of an
attribute that is linked to it, and that attribute, which alone can be inserted. -/
theorem ofWriters_dependencyCycle_subtypes :
    let writers : List Writer :=
      [.producing (.named "cat") .sub [.named "dog"] (.sub (.named "dog")),
        .producing (.named "dog") .sub [.named "cat"] (.sub (.named "cat")),
        .producing (.named "tom") .isa [.named "cat"] (.isa (.named "cat")),
        .linking (.named "tom") .has [.named "tom", .named "name"] (.has (.named "name")),
        .producing (.named "name") .id [] (.id ⟨0⟩)]
    let report : Except WriteError InsertPlan :=
      .error (.dependencyCycle [.named "cat", .named "dog", .named "tom"])
    ofWriters writers [] .empty = report ∧ Stuck writers .empty 3 ∧ ¬ Stuck writers .empty 4 := by
  intro writers report
  have hlast : Schedule.orderOf ((Producers.ofWriters writers).dependencies .empty writers) =
      [4] := by decide
  have hsupplied : (writers.flatMap (·.required.toList)).find?
      (!(Producers.ofWriters writers).supply .empty ·) = none := by decide
  have hleft : (unscheduled writers [4]).toList = [.named "cat", .named "dog", .named "tom"] := by
    decide
  have hreport : ofWriters writers [] .empty = report := by
    rw [ofWriters_eq]
    dsimp only
    rw [hlast, List.find?_nil, hsupplied, hleft]
    rfl
  obtain ⟨-, -, -, -, horder, -⟩ := ofWriters_dependencyCycle hreport
  rw [hlast] at horder
  refine ⟨hreport, ?_, ((horder 4).1 (by simp)).2⟩
  by_contra hfree
  have h3 := (horder 3).2 ⟨by decide, hfree⟩
  simp at h3

end InsertPlan

end GraphQuery
