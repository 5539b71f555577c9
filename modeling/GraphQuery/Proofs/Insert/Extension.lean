import GraphQuery.Proofs.Insert.Creation
import GraphQuery.Proofs.Store.Permanence

/-!
# Inserts only add

Whatever the writers of a plan are and wherever it fails, a plan that is carried out takes nothing
away: each of its computations continues the state that it begins with (`Execute.Keeps`). So the
store retains all that could be read of it, and the answer keeps its concepts
(`InsertPlan.execute_retains`).
-/

namespace GraphQuery

theorem Draft.evolves_build (d : Draft) (v : Variable) (s : Store) :
    s.Evolves ((d.build v).run.run s).2 :=
  snd_run_of_triple (d.build_spec v s) (fun _ _ h => h) fun _ _ h => h.1

/-- The concepts that are there stay, and the store has evolved. -/
structure Execution.Continues (x y : Execution) : Prop where
  concepts : ∀ v id, x.concepts.get? v = some id → y.concepts.get? v = some id
  store : x.store.Evolves y.store

theorem Execution.Continues.refl (x : Execution) : x.Continues x := ⟨fun _ _ h => h, .refl _⟩

theorem Execution.Continues.trans {x y z : Execution} (h : x.Continues y) (k : y.Continues z) :
    x.Continues z :=
  ⟨fun v id hv => k.concepts v id (h.concepts v id hv), h.store.trans k.store⟩

namespace Execute

variable {α β : Type} {m : Execute α} {f : α → Execute β}

/-- Where the computation ends, with a result or not, continues the state in which it begins. -/
def Keeps (m : Execute α) : Prop := ∀ x : Execution, x.Continues (m.run.run x).2

theorem keeps_pure (a : α) : Keeps (pure a) := Execution.Continues.refl

theorem keeps_throw (e : WriteError) : Keeps (throw e : Execute α) := Execution.Continues.refl

theorem Keeps.bind (h : Keeps m) (hf : ∀ a, Keeps (f a)) : Keeps (m >>= f) := by
  intro x
  have hx := h x
  rw [run_bind]
  rcases hm : m.run.run x with ⟨e | a, y⟩
  · rwa [hm] at hx
  · rw [hm] at hx
    exact hx.trans (hf a y)

theorem Keeps.get_bind {f : Execution → Execute β} (hf : ∀ x, Keeps (f x)) : Keeps (get >>= f) :=
  fun x => hf x x

theorem Keeps.forM {γ : Type} {f : γ → Execute PUnit} (hf : ∀ c, Keeps (f c)) (cs : List γ) :
    Keeps (cs.forM f) := by
  induction cs with
  | nil => exact keeps_pure _
  | cons c cs ih => exact (hf c).bind fun _ => ih

theorem Keeps.discard (h : Keeps m) : Keeps (discard m) := h.bind fun _ => keeps_pure _

end Execute

namespace Execution

open Execute

theorem record_keeps (event : ExecutionEvent) : Keeps (record event) :=
  fun _ => ⟨fun _ _ h => h, .refl _⟩

theorem contribute_keeps (v : Variable) (more : Draft → Draft) : Keeps (contribute v more) :=
  fun _ => ⟨fun _ _ h => h, .refl _⟩

theorem write_keeps {α : Type} {m : StoreM α} (op : Store.Operation)
    (hop : ∀ s, (m.run.run s).2 = op.run s) : Keeps (write (.ofStore m)) := by
  intro x
  rw [run_write, WriteM.run_ofStore]
  refine ⟨fun _ _ h => h, ?_⟩
  dsimp only
  rw [hop]
  exact op.evolves x.store

/-- A concept is only made for a variable that has none. -/
theorem concept_keeps (v : Variable) : Keeps (concept v) := by
  intro x
  rw [run_concept]
  cases hc : x.concepts.get? v with
  | some id => exact .refl x
  | none =>
    cases hd : x.drafts.get? v with
    | none => exact .refl x
    | some draft =>
      have hevolves := draft.evolves_build v x.store
      dsimp only
      rcases hrun : (draft.build v).run.run x.store with ⟨e | id, t⟩
      · rw [hrun] at hevolves
        exact ⟨fun _ _ h => h, hevolves⟩
      · rw [hrun] at hevolves
        exact ⟨fun _ _ hu => get?_withMade_of_some hc id t hu, hevolves⟩

theorem apply_keeps (w : Writer) : Keeps (apply w) := by
  obtain ⟨var, property, required, produced, action⟩ := w
  cases action with
  | isa type => exact (concept_keeps type).bind fun _ => contribute_keeps var _
  | sub superType => exact (concept_keeps superType).bind fun _ => contribute_keeps var _
  | label | id | dataType | value => exact contribute_keeps var _
  | has owned =>
    refine (concept_keeps var).bind fun owner => (concept_keeps owned).bind fun attr => ?_
    exact write_keeps (.addHas owner attr) fun _ => rfl
  | rolePlayers players =>
    refine (concept_keeps var).bind fun relation => Keeps.forM (fun rp => ?_) players
    refine (concept_keeps rp.player).bind fun player => ?_
    exact write_keeps (.addRolePlayer relation rp.role player) fun _ => rfl

theorem step_keeps (w : Writer) : Keeps (step w) :=
  (record_keeps (.starts w)).bind fun _ => (apply_keeps w).bind fun _ => record_keeps (.ends w)

theorem finish_keeps : Keeps finish :=
  Keeps.get_bind fun x => Keeps.forM (fun v => (concept_keeps v).discard) x.pending

end Execution

namespace InsertPlan

variable {plan : InsertPlan} {given : Answer}

theorem steps_keeps (plan : InsertPlan) (given : Answer) : Execute.Keeps (plan.steps given) := by
  rw [steps]
  cases plan.bound.toList.find? (!SortedMap.contains given ·) with
  | some v => exact Execute.keeps_throw _
  | none =>
    refine (Execute.Keeps.forM Execution.step_keeps (plan.applied given)).bind fun _ => ?_
    exact Execution.finish_keeps.bind fun _ => Execute.Keeps.get_bind fun x => Execute.keeps_pure _

/-- The answer of a plan has the concepts with which it ends. -/
theorem concepts_of_run {start : Store} {answer : Answer} {y : Execution}
    (h : plan.run given start = (.ok answer, y)) : y.concepts = answer := by
  rw [run, steps] at h
  cases hfind : plan.bound.toList.find? (!SortedMap.contains given ·) with
  | some v =>
    rw [hfind] at h
    cases h
  | none =>
    rw [hfind] at h
    dsimp only at h
    rw [Execute.run_bind] at h
    split at h
    · rw [Execute.run_bind] at h
      split at h
      · cases h
        rfl
      · cases h
    · cases h

/-- However carrying out a plan ends, the store has retained all that could be read of it. If there
is an answer, it has the concepts of the given one. -/
theorem execute_retains {s t : Store} {r : Except WriteError Answer} (h : s.Reachable)
    (hrun : (plan.execute given).run.run s = (r, t)) :
    s.Retains t ∧ ∀ answer, r = .ok answer →
      ∀ v id, given.get? v = some id → answer.get? v = some id := by
  have hkeeps := steps_keeps plan given ⟨s, given, .empty, #[]⟩
  rw [run_execute] at hrun
  obtain ⟨rfl, rfl⟩ := Prod.mk.inj hrun
  refine ⟨hkeeps.store.retains h, fun answer hanswer v id hv => ?_⟩
  rw [← concepts_of_run (Prod.ext hanswer rfl)]
  exact hkeeps.concepts v id hv

/-- An instance has been made when it turns out that there is nothing for it to own. -/
theorem execute_retains_person :
    let person : Variable := .generated 0
    let x : Variable := .generated 1
    let name : Variable := .generated 2
    let plan : InsertPlan := ⟨[.producing x .isa [person] (.isa person),
      .linking x .has [x, name] (.has name)], [0, 1], .ofList [person]⟩
    let given : Answer := .ofList [(person, ⟨0⟩)]
    let s := Store.after [.defineType ⟨"person"⟩ none none]
    ∃ t, (plan.execute given).run.run s = (.error (.unboundRequirement name), t) ∧
      s.size = 1 ∧ t.size = 2 ∧ s.Retains t := by
  intro person x name plan given s
  have hreply : ((plan.execute given).run.run s).1 = .error (.unboundRequirement name) := by rfl
  have hrun : (plan.execute given).run.run s =
      (.error (.unboundRequirement name), ((plan.execute given).run.run s).2) :=
    Prod.ext hreply rfl
  exact ⟨_, hrun, rfl, rfl, (execute_retains (Store.reachable_after _) hrun).1⟩

end InsertPlan

end GraphQuery
