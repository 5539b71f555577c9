import GraphQuery.Insert.Writer
import Std.Data.TreeMap.Lemmas

/-!
# Producers

A concept may be the work of several writers, of which each says something else about it. An index
tells for every variable which writers of a list help to produce it, by their places in the list
(`Producers.places_ofWriters`).
-/

namespace GraphQuery

/-- For variables that writers help to produce, the places of these writers. -/
structure Producers where
  byVariable : Std.TreeMap Variable (List Nat)

namespace Producers

def empty : Producers := ⟨∅⟩

/-- The places of the writers that help to produce a variable. -/
def places (index : Producers) (v : Variable) : List Nat := index.byVariable.getD v []

/-- The index with one more place for a variable, in front of the others. -/
def add (place : Nat) (v : Variable) (index : Producers) : Producers :=
  ⟨index.byVariable.insert v (place :: index.places v)⟩

/-- The index with a writer and its place, in front of the others. -/
def enter (numbered : Writer × Nat) (index : Producers) : Producers :=
  numbered.1.produced.toList.foldr (add numbered.2) index

def ofWriters (writers : List Writer) : Producers := writers.zipIdx.foldr enter empty

theorem places_add (place : Nat) (v w : Variable) (index : Producers) :
    (index.add place v).places w = if v = w then place :: index.places w else index.places w := by
  by_cases h : v = w
  · simp [add, places, h]
  · simp [add, places, Std.TreeMap.getD_insert, h]

theorem places_foldr_add (place : Nat) (w : Variable) (index : Producers) {vs : List Variable}
    (hvs : vs.Pairwise (fun a b => compare a b = .lt)) :
    (vs.foldr (add place) index).places w =
      if w ∈ vs then place :: index.places w else index.places w := by
  induction vs with
  | nil => simp
  | cons v vs ih =>
    have ⟨hv, hvs⟩ := List.pairwise_cons.1 hvs
    rw [List.foldr_cons, places_add, ih hvs]
    by_cases h : v = w
    · have hw : w ∉ vs := fun hw => by simpa [h] using hv w hw
      simp [h, hw]
    · simp [h, Ne.symm h]

theorem places_enter (numbered : Writer × Nat) (w : Variable) (index : Producers) :
    (index.enter numbered).places w =
      if w ∈ numbered.1.produced then numbered.2 :: index.places w else index.places w :=
  places_foldr_add numbered.2 w index numbered.1.produced.ascending

/-- The index gives the places of all writers that help to produce a variable, in order. -/
theorem places_ofWriters (writers : List Writer) (w : Variable) :
    (ofWriters writers).places w =
      (writers.zipIdx.filter (w ∈ ·.1.produced)).map (·.2) := by
  rw [ofWriters]
  induction writers.zipIdx with
  | nil => simp [places, empty]
  | cons numbered rest ih =>
    rw [List.foldr_cons, places_enter, ih, List.filter_cons]
    by_cases h : w ∈ numbered.1.produced <;> simp [h]

end Producers

end GraphQuery
