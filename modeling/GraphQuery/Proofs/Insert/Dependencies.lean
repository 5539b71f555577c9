import GraphQuery.Insert.Schedule
import GraphQuery.Proofs.Collection.Lists
import Mathlib.Data.List.Lex
import Mathlib.Data.List.Nodup
import Mathlib.Data.Fintype.EquivFin
import Mathlib.Order.WellFounded

/-!
# Dependencies and orders of jobs

An order of jobs is admissible when it takes each job once and after all that it depends on. A job
from which dependencies lead to a cycle has no place in any such order. As long as a job without a
cycle behind it has not been taken, some job is ready.
-/

namespace GraphQuery

/-- Through any number of steps one comes from `a` to something from which one comes back to it. -/
def LeadsToCycle {α : Type} (r : α → α → Prop) (a : α) : Prop :=
  ∃ b, Relation.ReflTransGen r a b ∧ Relation.TransGen r b b

namespace LeadsToCycle

variable {α : Type} {r : α → α → Prop} {a b : α}

theorem of_cycle (h : Relation.TransGen r a a) : LeadsToCycle r a := ⟨a, .refl, h⟩

theorem of_step (hab : r a b) (h : LeadsToCycle r b) : LeadsToCycle r a := by
  obtain ⟨c, hbc, hcycle⟩ := h
  exact ⟨c, hbc.head hab, hcycle⟩

theorem exists_step (h : LeadsToCycle r a) : ∃ b, r a b ∧ LeadsToCycle r b := by
  obtain ⟨c, hac, hcycle⟩ := h
  rcases hac.cases_head with rfl | ⟨b, hab, hbc⟩
  · obtain ⟨b, hab, hba⟩ := Relation.TransGen.head'_iff.1 hcycle
    exact ⟨b, hab, a, hba, hcycle⟩
  · exact ⟨b, hab, c, hbc, hcycle⟩

end LeadsToCycle

namespace Dependencies

theorem getElem?_foldl_modify (job i : Nat) {others : List Nat} (rows : Array (List Nat))
    (h : others.Nodup) :
    (others.foldl (fun rows other => rows.modify other (job :: ·)) rows)[i]? =
      if i ∈ others then rows[i]?.map (job :: ·) else rows[i]? := by
  induction others generalizing rows with
  | nil => simp
  | cons other others ih =>
    have ⟨hother, hothers⟩ := List.nodup_cons.1 h
    rw [List.foldl_cons, ih _ hothers, Array.getElem?_modify]
    by_cases hi : other = i
    · subst hi
      simp [hother]
    · simp [hi, Ne.symm hi]

theorem nodup_toList (others : SortedSet Nat) : others.toList.Nodup :=
  others.ascending.imp fun h e => by simp [e] at h

theorem getElem?_enter (numbered : SortedSet Nat × Nat) (rows : Array (List Nat)) (i : Nat) :
    (enter numbered rows)[i]? =
      if i ∈ numbered.1 then rows[i]?.map (numbered.2 :: ·) else rows[i]? :=
  getElem?_foldl_modify numbered.2 i rows (nodup_toList numbered.1)

theorem getElem?_dependants (deps : Dependencies) {i : Nat} (hi : i < deps.length) :
    deps.dependants[i]? = some ((deps.zipIdx.filter (i ∈ ·.1)).map (·.2)) := by
  rw [dependants]
  induction deps.zipIdx with
  | nil => simp [hi]
  | cons numbered rest ih =>
    rw [List.foldr_cons, getElem?_enter, ih, List.filter_cons]
    by_cases h : i ∈ numbered.1 <;> simp [h]

theorem mem_dependants {deps : Dependencies} {job other : Nat} (h : other < deps.length) :
    job ∈ deps.dependants.getD other [] ↔ deps.dependsOn job other = true := by
  rw [Array.getD_eq_getD_getElem?, getElem?_dependants deps h, dependsOn]
  simp only [Option.getD_some, List.mem_map, List.mem_filter, Prod.exists, exists_eq_right,
    List.mk_mem_zipIdx_iff_getElem?]
  cases deps[job]? <;> simp

theorem nodup_dependants (deps : Dependencies) {other : Nat} (h : other < deps.length) :
    (deps.dependants.getD other []).Nodup := by
  rw [Array.getD_eq_getD_getElem?, getElem?_dependants deps h]
  refine List.Nodup.sublist (List.filter_sublist.map _) ?_
  rw [List.zipIdx_map_snd]
  exact List.nodup_range'

/-- The job is none of those taken, and all that it depends on has been. -/
def Ready (deps : Dependencies) (taken : List Nat) (job : Nat) : Prop :=
  job < deps.length ∧ job ∉ taken ∧ ∀ other, deps.dependsOn job other = true → other ∈ taken

/-- Each job of the order is ready when its turn comes. -/
def Admissible (deps : Dependencies) (order : List Nat) : Prop :=
  ∀ front job back, order = front ++ job :: back → deps.Ready front job

/-- Each job of the order is the first of those that are ready when its turn comes. -/
def Greedy (deps : Dependencies) (order : List Nat) : Prop :=
  deps.Admissible order ∧
    ∀ front job back, order = front ++ job :: back → ∀ other, deps.Ready front other → job ≤ other

/-- No job depends on one that is not there. -/
def Closed (deps : Dependencies) : Prop :=
  ∀ job other, deps.dependsOn job other = true → other < deps.length

/-- Some job depends on itself, through any number of steps. -/
def Cyclic (deps : Dependencies) : Prop :=
  ∃ job, Relation.TransGen (fun job other => deps.dependsOn job other = true) job job

variable {deps : Dependencies} {order : List Nat}

theorem lt_length_of_dependsOn {job other : Nat} (h : deps.dependsOn job other = true) :
    job < deps.length := by
  rw [dependsOn] at h
  split at h
  · rename_i hjob
    exact (List.getElem?_eq_some_iff.1 hjob).1
  · cases h

theorem admissible_nil : deps.Admissible [] := by
  intro front job back h
  simp at h

theorem Admissible.concat {taken : List Nat} {next : Nat} (h : deps.Admissible taken)
    (hnext : deps.Ready taken next) : deps.Admissible (taken ++ [next]) := by
  intro front job back e
  rcases append_singleton_eq e with ⟨rfl, rfl⟩ | ⟨back', -, htaken⟩
  · exact hnext
  · exact h front job back' htaken

theorem Greedy.concat {taken : List Nat} {next : Nat} (h : deps.Greedy taken)
    (hnext : deps.Ready taken next) (hleast : ∀ other, deps.Ready taken other → next ≤ other) :
    deps.Greedy (taken ++ [next]) := by
  refine ⟨h.1.concat hnext, fun front job back e => ?_⟩
  rcases append_singleton_eq e with ⟨rfl, rfl⟩ | ⟨back', -, htaken⟩
  · exact hleast
  · exact h.2 front job back' htaken

theorem Admissible.ready_of_mem (h : deps.Admissible order) {job : Nat} (hjob : job ∈ order) :
    ∃ front back, order = front ++ job :: back ∧ deps.Ready front job := by
  obtain ⟨front, back, rfl⟩ := List.append_of_mem hjob
  exact ⟨front, back, rfl, h front job back rfl⟩

theorem Admissible.mem_of_dependsOn (h : deps.Admissible order) {job other : Nat}
    (hjob : job ∈ order) (hother : deps.dependsOn job other = true) : other ∈ order := by
  obtain ⟨front, back, rfl, hready⟩ := h.ready_of_mem hjob
  exact List.mem_append_left _ (hready.2.2 other hother)

theorem Admissible.lt_length (h : deps.Admissible order) {job : Nat} (hjob : job ∈ order) :
    job < deps.length := by
  obtain ⟨front, back, rfl, hready⟩ := h.ready_of_mem hjob
  exact hready.1

theorem Admissible.nodup (h : deps.Admissible order) : order.Nodup := by
  induction order using List.reverseRecOn with
  | nil => exact .nil
  | append_singleton taken next ih =>
    have htaken : deps.Admissible taken := fun front job back e =>
      h front job (back ++ [next]) (by simp [e])
    exact List.Nodup.append (ih htaken) (List.nodup_singleton next)
      (List.disjoint_singleton.2 (h taken next [] rfl).2.1)

theorem Admissible.length_le (h : deps.Admissible order) : order.length ≤ deps.length := by
  have hsub : order ⊆ List.range deps.length := fun job hjob => List.mem_range.2 (h.lt_length hjob)
  simpa using (h.nodup.subperm hsub).length_le

theorem Admissible.perm_range (h : deps.Admissible order) (hlen : order.length = deps.length) :
    order.Perm (List.range deps.length) := by
  have hsub : order ⊆ List.range deps.length := fun job hjob => List.mem_range.2 (h.lt_length hjob)
  exact (h.nodup.subperm hsub).perm_of_length_le (by simp [hlen])

theorem Admissible.idxOf_lt (h : deps.Admissible order) {job other : Nat} (hjob : job ∈ order)
    (hother : deps.dependsOn job other = true) : order.idxOf other < order.idxOf job := by
  obtain ⟨front, back, rfl, hready⟩ := h.ready_of_mem hjob
  have hfront := hready.2.2 other hother
  rw [List.idxOf_append_of_mem hfront, List.idxOf_append_of_notMem hready.2.1]
  exact Nat.lt_of_lt_of_le (List.idxOf_lt_length_of_mem hfront) (Nat.le_add_right _ _)

/-- A job of which dependencies lead to a cycle has no place in an admissible order: it would come
after one that leads there as well. -/
theorem Admissible.not_leadsToCycle (h : deps.Admissible order) {job : Nat} (hjob : job ∈ order) :
    ¬ LeadsToCycle (fun job other => deps.dependsOn job other = true) job := by
  intro hcycle
  induction hplace : order.idxOf job using Nat.strong_induction_on generalizing job with
  | _ place ih =>
    obtain ⟨other, hother, hbehind⟩ := hcycle.exists_step
    have hlt : order.idxOf other < place := hplace ▸ h.idxOf_lt hjob hother
    exact ih _ hlt (h.mem_of_dependsOn hjob hother) hbehind rfl

/-- No admissible order has all jobs if one depends on itself. -/
theorem Admissible.not_cyclic (h : deps.Admissible order) (hlen : order.length = deps.length) :
    ¬ deps.Cyclic := by
  rintro ⟨job, hcycle⟩
  have hleads := LeadsToCycle.of_cycle hcycle
  obtain ⟨other, hother, -⟩ := hleads.exists_step
  have hjob : job ∈ order :=
    (h.perm_range hlen).mem_iff.2 (List.mem_range.2 (lt_length_of_dependsOn hother))
  exact h.not_leadsToCycle hjob hleads

/-- As long as a job has not been taken of which no dependencies lead to a cycle, some job is
ready. -/
theorem exists_ready (hclosed : deps.Closed) {taken : List Nat} {job : Nat} (hlt : job < deps.length)
    (hjob : job ∉ taken)
    (hfree : ¬ LeadsToCycle (fun job other => deps.dependsOn job other = true) job) :
    ∃ next, deps.Ready taken next := by
  -- From such a job, following dependencies ends, since there are finitely many jobs.
  let dependsOn (job other : Nat) : Prop := deps.dependsOn job other = true
  let below (a b : {a : Fin deps.length // ¬ LeadsToCycle dependsOn a}) : Prop :=
    Relation.TransGen dependsOn b.val a.val
  have : IsTrans _ below := ⟨fun _ _ _ hab hbc => hbc.trans hab⟩
  have : Std.Irrefl below := ⟨fun a ha => a.property (.of_cycle ha)⟩
  have hwf : WellFounded below := Finite.wellFounded_of_trans_of_irrefl below
  obtain ⟨least, hleast, hmin⟩ :=
    hwf.has_min {a | a.val.val ∉ taken} ⟨⟨⟨job, hlt⟩, hfree⟩, hjob⟩
  refine ⟨least.val, least.val.isLt, hleast, fun other hother => ?_⟩
  by_contra hnot
  have hotherFree : ¬ LeadsToCycle dependsOn other := mt (.of_step hother) least.property
  exact hmin ⟨⟨other, hclosed _ _ hother⟩, hotherFree⟩ hnot (.single hother)

/-- Taking the first ready job each time gives the lexicographically least admissible order. -/
theorem Greedy.le (h : deps.Greedy order) {other : List Nat} (hother : deps.Admissible other)
    (hlen : order.length ≤ other.length) : order ≤ other := by
  apply not_lt.1
  intro hlt
  rcases List.lt_iff_exists.1 hlt with ⟨-, hshort⟩ | ⟨i, hi, hi', heq, hless⟩
  · omega
  · have htake : other.take i = order.take i := by
      refine List.ext_getElem (by simp; omega) fun j hj _ => ?_
      simp only [List.length_take] at hj
      simpa using heq j (by omega)
    have horder : order = order.take i ++ order[i] :: order.drop (i + 1) := by simp
    have hready : deps.Ready (order.take i) other[i] := by
      rw [← htake]
      exact hother _ _ (other.drop (i + 1)) (by simp)
    exact absurd (h.2 _ _ _ horder _ hready) (Nat.not_le.2 hless)

end Dependencies

end GraphQuery
