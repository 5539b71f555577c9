import GraphQuery.Proofs.Insert.Dependencies

/-!
# What schedules do

At any time a schedule has taken jobs greedily, the jobs set down as ready are those that are, and
the count kept for a job is the number of jobs on which it depends and which have not been taken
(`Invariant`). So it ends with the least admissible order, unless there is a cycle, and no count is
ever lowered below zero.
-/

namespace GraphQuery

/-- The number of jobs on which a job depends and which have not been taken. -/
def Dependencies.outstanding? (deps : Dependencies) (taken : List Nat) (job : Nat) : Option Nat :=
  deps[job]?.map fun (others : SortedSet Nat) => others.toList.countP (· ∉ taken)

namespace Schedule

/-- What holds of a schedule at any time. -/
structure Invariant (deps : Dependencies) (s : Schedule) : Prop where
  greedy : deps.Greedy s.order.toList
  mem_ready : ∀ job, job ∈ s.ready ↔ deps.Ready s.order.toList job
  waiting_eq : ∀ job, s.waiting[job]? = deps.outstanding? s.order.toList job

variable {deps : Dependencies}

theorem ready_iff {taken : List Nat} {job : Nat} :
    deps.Ready taken job ↔ job ∉ taken ∧ deps.outstanding? taken job = some 0 := by
  rw [Dependencies.Ready, Dependencies.outstanding?]
  unfold Dependencies.dependsOn
  cases h : deps[job]? with
  | none =>
    have hlen : deps.length ≤ job := List.getElem?_eq_none_iff.1 h
    simp [Nat.not_lt.2 hlen]
  | some others =>
    have hlt : job < deps.length := (List.getElem?_eq_some_iff.1 h).1
    simp [hlt, List.countP_eq_zero]

theorem countP_not_mem_concat {others taken : List Nat} {job : Nat} (hothers : others.Nodup)
    (hjob : job ∉ taken) :
    others.countP (· ∉ taken) =
      others.countP (· ∉ taken ++ [job]) + if job ∈ others then 1 else 0 := by
  induction others with
  | nil => simp
  | cons other others ih =>
    have ⟨hother, hrest⟩ := List.nodup_cons.1 hothers
    rw [List.countP_cons, List.countP_cons, ih hrest]
    by_cases h : other = job
    · subst h
      simp [hother, hjob]
    · by_cases hmem : other ∈ taken
      · simp [h, hmem, Ne.symm h]
      · simp [h, hmem, Ne.symm h]
        omega

/-- When a job is taken, those that depend on it have one less to wait for. -/
theorem outstanding?_concat {taken : List Nat} {job : Nat} (hjob : job ∉ taken) (k : Nat) :
    deps.outstanding? taken k =
      (deps.outstanding? (taken ++ [job]) k).map
        (· + if deps.dependsOn k job = true then 1 else 0) := by
  unfold Dependencies.outstanding? Dependencies.dependsOn
  cases deps[k]? with
  | none => rfl
  | some others =>
    rw [Option.map_some, Option.map_some, Option.map_some,
      countP_not_mem_concat (Dependencies.nodup_toList others) hjob]
    simp

theorem exists_outstanding? {k other : Nat} (h : deps.dependsOn k other = true) (taken : List Nat) :
    ∃ count, deps.outstanding? taken k = some count := by
  have hlt := Dependencies.lt_length_of_dependsOn h
  exact ⟨_, by rw [Dependencies.outstanding?, List.getElem?_eq_getElem hlt, Option.map_some]⟩

theorem waiting_release (s : Schedule) (job : Nat) :
    (s.release job).waiting = s.waiting.modify job (· - 1) := rfl

theorem mem_ready_release {s : Schedule} {job k : Nat} :
    k ∈ (s.release job).ready ↔
      k ∈ s.ready ∨ k = job ∧ s.waiting[job]?.map (· - 1) = some 0 := by
  cases s with
  | mk order ready waiting =>
    simp only [release, Array.getElem?_modify, if_pos]
    split
    · rename_i h
      rw [SortedSet.mem_insert, or_comm]
      simp only [h, and_true]
    · rename_i h
      simp only [h, and_false, or_false]

theorem order_foldl_release (jobs : List Nat) (s : Schedule) :
    (jobs.foldl release s).order = s.order := by
  induction jobs generalizing s with
  | nil => rfl
  | cons job jobs ih => exact ih _

theorem waiting_foldl_release {jobs : List Nat} (h : jobs.Nodup) (s : Schedule) (k : Nat) :
    (jobs.foldl release s).waiting[k]? =
      if k ∈ jobs then s.waiting[k]?.map (· - 1) else s.waiting[k]? := by
  induction jobs generalizing s with
  | nil => simp
  | cons job jobs ih =>
    have ⟨hjob, hjobs⟩ := List.nodup_cons.1 h
    rw [List.foldl_cons, ih hjobs, waiting_release, Array.getElem?_modify]
    by_cases hk : job = k
    · subst hk
      simp [hjob]
    · simp [hk, Ne.symm hk]

theorem mem_ready_foldl_release {jobs : List Nat} (h : jobs.Nodup) {s : Schedule} {k : Nat} :
    k ∈ (jobs.foldl release s).ready ↔
      k ∈ s.ready ∨ k ∈ jobs ∧ s.waiting[k]?.map (· - 1) = some 0 := by
  induction jobs generalizing s with
  | nil => simp
  | cons job jobs ih =>
    have ⟨hjob, hjobs⟩ := List.nodup_cons.1 h
    rw [List.foldl_cons, ih hjobs, mem_ready_release, waiting_release, Array.getElem?_modify,
      List.mem_cons]
    by_cases hk : job = k
    · subst hk
      simp [hjob]
    · simp [hk, Ne.symm hk]

theorem uncons?_eq_some {s rest : SortedSet Nat} {job : Nat} (h : s.uncons? = some (job, rest)) :
    job ∈ s ∧ (∀ k, k ∈ rest ↔ k ∈ s ∧ k ≠ job) ∧ ∀ k ∈ s, job ≤ k := by
  obtain ⟨l, hl⟩ := s
  cases l with
  | nil => cases h
  | cons x xs =>
    cases h
    have hlt : ∀ k ∈ xs, job < k := fun k hk => Nat.compare_eq_lt.1 ((List.pairwise_cons.1 hl).1 k hk)
    refine ⟨List.mem_cons_self, fun k => ?_, fun k hk => ?_⟩
    · change k ∈ xs ↔ k ∈ job :: xs ∧ k ≠ job
      rw [List.mem_cons]
      constructor
      · exact fun hk => ⟨Or.inr hk, Nat.ne_of_gt (hlt k hk)⟩
      · exact fun ⟨hk, hne⟩ => hk.resolve_left hne
    · rcases List.mem_cons.1 hk with rfl | hk
      · exact Nat.le_refl _
      · exact Nat.le_of_lt (hlt k hk)

theorem advance?_eq_some {rows : Array (List Nat)} {s next : Schedule}
    (h : s.advance? rows = some next) :
    ∃ job rest, s.ready.uncons? = some (job, rest) ∧
      next = (rows.getD job []).foldl release ⟨s.order.push job, rest, s.waiting⟩ := by
  obtain ⟨order, ready, waiting⟩ := s
  obtain ⟨⟨job, rest⟩, hready, hnext⟩ := Option.bind_eq_some_iff.1 h
  exact ⟨job, rest, hready, (Option.some.inj hnext).symm⟩

theorem advance?_eq_none {rows : Array (List Nat)} {s : Schedule} (h : s.advance? rows = none) :
    ∀ job, job ∉ s.ready := by
  obtain ⟨order, ⟨l, hl⟩, waiting⟩ := s
  cases l with
  | nil => exact fun _ => List.not_mem_nil
  | cons x xs => cases h

theorem waiting_start (deps : Dependencies) (job : Nat) :
    (start deps).waiting[job]? = deps.outstanding? [] job := by
  simp [start, Dependencies.outstanding?]
  rfl

namespace Invariant

variable {s : Schedule}

theorem start (deps : Dependencies) : Invariant deps (start deps) where
  greedy := ⟨Dependencies.admissible_nil, by simp [Schedule.start]⟩
  mem_ready job := by
    rw [ready_iff, Schedule.start, SortedSet.mem_ofList, List.mem_filter, decide_eq_true_iff]
    change _ ∧ (Schedule.start deps).waiting[job]? = some 0 ↔ _
    rw [waiting_start]
    refine and_congr_left fun h => iff_of_true (List.mem_range.2 ?_) List.not_mem_nil
    obtain ⟨others, hothers, -⟩ := Option.map_eq_some_iff.1 h
    exact (List.getElem?_eq_some_iff.1 hothers).1
  waiting_eq := waiting_start deps

theorem ready_next (hs : Invariant deps s) {job : Nat} {rest : SortedSet Nat}
    (h : s.ready.uncons? = some (job, rest)) : deps.Ready s.order.toList job :=
  (hs.mem_ready job).1 (uncons?_eq_some h).1

/-- When the jobs that depend on the next one are released, each is still counted as waiting. -/
theorem waiting_of_release (hs : Invariant deps s) {job next : Nat} {rest : SortedSet Nat}
    (h : s.ready.uncons? = some (job, rest)) {front back : List Nat}
    (hrow : deps.dependants.getD job [] = front ++ next :: back) :
    ∃ count, (front.foldl release ⟨s.order.push job, rest, s.waiting⟩).waiting[next]? =
      some (count + 1) := by
  have hjob := hs.ready_next h
  have hnodup : (front ++ next :: back).Nodup := hrow ▸ Dependencies.nodup_dependants deps hjob.1
  have hnext : deps.dependsOn next job = true := by
    rw [← Dependencies.mem_dependants hjob.1, hrow]
    simp
  rw [waiting_foldl_release (List.Nodup.of_append_left hnodup)]
  have hfront : next ∉ front := fun hmem =>
    List.disjoint_of_nodup_append hnodup hmem List.mem_cons_self
  rw [if_neg hfront]
  change ∃ count, s.waiting[next]? = some (count + 1)
  obtain ⟨count, hcount⟩ := exists_outstanding? hnext (s.order.toList ++ [job])
  exact ⟨count, by rw [hs.waiting_eq, outstanding?_concat hjob.2.1, hcount, if_pos hnext]; rfl⟩

theorem advance (hs : Invariant deps s) {next : Schedule}
    (h : s.advance? deps.dependants = some next) : Invariant deps next := by
  obtain ⟨job, rest, hnext, rfl⟩ := advance?_eq_some h
  have hjob := hs.ready_next hnext
  have ⟨hmem, hrest, hleast⟩ := uncons?_eq_some hnext
  have hrow := Dependencies.nodup_dependants deps hjob.1
  have horder : ((deps.dependants.getD job []).foldl release
      ⟨s.order.push job, rest, s.waiting⟩).order.toList = s.order.toList ++ [job] := by
    rw [order_foldl_release]
    simp
  -- A job that is ready now was ready before, or waited for nothing but the job just taken.
  constructor
  · rw [horder]
    exact hs.greedy.concat hjob fun other hother => hleast other ((hs.mem_ready other).2 hother)
  · intro k
    rw [horder, mem_ready_foldl_release hrow, Dependencies.mem_dependants hjob.1]
    change k ∈ rest ∨ _ ∧ s.waiting[k]?.map _ = _ ↔ _
    rw [hrest, hs.mem_ready, ready_iff, ready_iff, hs.waiting_eq, outstanding?_concat hjob.2.1]
    by_cases hk : deps.dependsOn k job = true
    · have htaken : k ∉ s.order.toList := fun h =>
        hjob.2.1 (hs.greedy.1.mem_of_dependsOn h hk)
      have hne : k ≠ job := fun e => hjob.2.1 (hjob.2.2 job (e ▸ hk))
      cases deps.outstanding? (s.order.toList ++ [job]) k <;> simp [hk, htaken, hne]
    · cases deps.outstanding? (s.order.toList ++ [job]) k <;> simp [hk, and_right_comm]
  · intro k
    rw [horder, waiting_foldl_release hrow]
    change (if k ∈ _ then s.waiting[k]?.map _ else s.waiting[k]?) = _
    rw [hs.waiting_eq, outstanding?_concat hjob.2.1]
    by_cases hk : deps.dependsOn k job = true
    · rw [if_pos ((Dependencies.mem_dependants hjob.1).2 hk), if_pos hk, Option.map_map]
      simp [Function.comp_def]
    · rw [if_neg (mt (Dependencies.mem_dependants hjob.1).1 hk), if_neg hk]
      simp

theorem run (hs : Invariant deps s) (n : Nat) : Invariant deps (run deps.dependants n s) := by
  induction n generalizing s with
  | zero => exact hs
  | succ n ih =>
    rw [Schedule.run]
    split
    · rename_i next hnext
      exact ih (hs.advance hnext)
    · exact hs

end Invariant

/-- The schedule at a moment of the run at which a job is released, since one that it waited for has
just been taken. -/
def Releases (deps : Dependencies) (s : Schedule) (job : Nat) : Prop :=
  ∃ steps taken ready front back,
    (run deps.dependants steps (start deps)).ready.uncons? = some (taken, ready) ∧
    deps.dependants.getD taken [] = front ++ job :: back ∧
    s = front.foldl release ⟨(run deps.dependants steps (start deps)).order.push taken, ready,
      (run deps.dependants steps (start deps)).waiting⟩

/-- No count is lowered below zero. -/
theorem Releases.exists_waiting {s : Schedule} {job : Nat} (h : Releases deps s job) :
    ∃ count, s.waiting[job]? = some (count + 1) := by
  obtain ⟨steps, taken, ready, front, back, hready, hrow, rfl⟩ := h
  exact ((Invariant.start deps).run steps).waiting_of_release hready hrow

/-- A run goes on for as many jobs as it may take, or until none is ready. -/
theorem size_order_run (rows : Array (List Nat)) (n : Nat) (s : Schedule) :
    (run rows n s).order.size = s.order.size + n ∨ ∀ job, job ∉ (run rows n s).ready := by
  induction n generalizing s with
  | zero => exact Or.inl rfl
  | succ n ih =>
    rw [run]
    split
    · rename_i next hnext
      obtain ⟨job, rest, -, rfl⟩ := advance?_eq_some hnext
      have hsize := ih ((rows.getD job []).foldl release ⟨s.order.push job, rest, s.waiting⟩)
      rw [order_foldl_release, Array.size_push] at hsize
      rwa [Nat.add_right_comm] at hsize
    · rename_i hnone
      exact Or.inr (advance?_eq_none hnone)

theorem greedy_orderOf (deps : Dependencies) : deps.Greedy (orderOf deps) :=
  ((Invariant.start deps).run deps.length).greedy

/-- The jobs that are taken are those of which no dependencies lead to a cycle. -/
theorem mem_orderOf_iff (hclosed : deps.Closed) {job : Nat} :
    job ∈ orderOf deps ↔
      job < deps.length ∧
        ¬ LeadsToCycle (fun job other => deps.dependsOn job other = true) job := by
  have hadmissible := (greedy_orderOf deps).1
  refine ⟨fun hjob => ⟨hadmissible.lt_length hjob, hadmissible.not_leadsToCycle hjob⟩,
    fun ⟨hlt, hfree⟩ => ?_⟩
  rcases size_order_run deps.dependants deps.length (start deps) with hsize | hready
  · have hlen : (orderOf deps).length = deps.length := by
      rw [orderOf, Array.length_toList, hsize]
      exact Nat.zero_add _
    exact (hadmissible.perm_range hlen).mem_iff.2 (List.mem_range.2 hlt)
  · by_contra hleft
    -- A job that is left over would make another one ready.
    have hs := (Invariant.start deps).run deps.length
    obtain ⟨next, hnext⟩ := Dependencies.exists_ready hclosed hlt hleft hfree
    exact hready next ((hs.mem_ready next).2 hnext)

/-- All jobs are taken unless there is a cycle. -/
theorem length_orderOf_eq_iff (hclosed : deps.Closed) :
    (orderOf deps).length = deps.length ↔ ¬ deps.Cyclic := by
  refine ⟨(greedy_orderOf deps).1.not_cyclic, fun hcycle => ?_⟩
  have hsub : List.range deps.length ⊆ orderOf deps := fun job hjob =>
    (mem_orderOf_iff hclosed).2 ⟨List.mem_range.1 hjob, fun ⟨other, _, hother⟩ =>
      hcycle ⟨other, hother⟩⟩
  exact Nat.le_antisymm (greedy_orderOf deps).1.length_le (by
    simpa using (List.nodup_range.subperm hsub).length_le)

end Schedule

end GraphQuery
