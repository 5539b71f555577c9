import GraphQuery.Insert.Execution
import GraphQuery.Proofs.Collection.Lists

/-!
# Traces of inserts

In an orderly trace the concept of a variable is made at most once: when all writers that help to
produce it have ended, and before none of them.
-/

namespace GraphQuery

namespace ExecutionEvent

def ended? : ExecutionEvent → Option Writer
  | ends w => some w
  | starts _ | makes _ => none

/-- The event may follow others while the writers `ws` are applied: what a writer helps to produce
has not been made, and what is made has had all its writers. -/
def Fits (ws : List Writer) (given : Answer) (before : List ExecutionEvent) :
    ExecutionEvent → Prop
  | starts w | ends w => ∀ v, makes v ∈ before → v ∉ w.produced
  | makes v => SortedMap.get? given v = none ∧ makes v ∉ before ∧
      (before.filterMap ended?).filter (v ∈ ·.produced) = ws.filter (v ∈ ·.produced)

end ExecutionEvent

open ExecutionEvent

/-- Every event of the trace may follow those before it. -/
def Orderly (ws : List Writer) (given : Answer) (trace : List ExecutionEvent) : Prop :=
  ∀ before event after, trace = before ++ event :: after → event.Fits ws given before

namespace Orderly

variable {ws : List Writer} {given : Answer} {trace before after : List ExecutionEvent}
  {event : ExecutionEvent} {v : Variable}

theorem nil : Orderly ws given [] := by
  intro before event after h
  simp at h

theorem concat (h : Orderly ws given trace) (he : event.Fits ws given trace) :
    Orderly ws given (trace ++ [event]) := by
  intro before other after hsplit
  rcases append_singleton_eq hsplit with ⟨rfl, rfl⟩ | ⟨after', -, htrace⟩
  · exact he
  · exact h before other after' htrace

variable (h : Orderly ws given (before ++ makes v :: after))
include h

theorem not_produced_after {w : Writer} (hw : starts w ∈ after ∨ ends w ∈ after) :
    v ∉ w.produced := by
  rcases hw with hw | hw
  · obtain ⟨between, rest, rfl⟩ := List.append_of_mem hw
    exact h (before ++ makes v :: between) (starts w) rest (by simp) v (by simp)
  · obtain ⟨between, rest, rfl⟩ := List.append_of_mem hw
    exact h (before ++ makes v :: between) (ends w) rest (by simp) v (by simp)

end Orderly

end GraphQuery
