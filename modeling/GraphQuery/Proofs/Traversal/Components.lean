import GraphQuery.Proofs.Traversal.Order
import Mathlib.Logic.Relation

/-!
# Components of a plan

The constraints of a list are the vertices of a graph, with an edge between two that share a
variable. A greedy plan takes the components of this graph one after another: as long as something
is left of a component that it has entered, what it takes is reached, so that at no time more than
one component is open.
-/

namespace GraphQuery.TraversalPlan

/-- That two constraints of a list share a variable. -/
def Adjacent (sets : List FragmentSet) (s t : FragmentSet) : Prop :=
  s ∈ sets ∧ t ∈ sets ∧ s.Shares t

instance (sets : List FragmentSet) : Std.Symm (Adjacent sets) :=
  ⟨fun _ _ ⟨hs, ht, v, hvs, hvt⟩ => ⟨ht, hs, v, hvt, hvs⟩⟩

/-- That two constraints of a list are in the same component. -/
def Linked (sets : List FragmentSet) : FragmentSet → FragmentSet → Prop :=
  Relation.ReflTransGen (Adjacent sets)

/-- That no member of a list stands between two related ones unless it is related to them. -/
def Contiguous {α : Type} (r : α → α → Prop) (xs : List α) : Prop :=
  ∀ front x mid y back, xs = front ++ x :: (mid ++ y :: back) → r x y → ∀ z ∈ mid, r x z

variable {emitted plan front back : List FragmentSet} {s t : FragmentSet}

theorem Linked.symm {sets : List FragmentSet} (h : Linked sets s t) : Linked sets t s :=
  Std.Symm.symm (r := Relation.ReflTransGen (Adjacent sets)) _ _ h

/-- A chain that leaves the front reaches what comes after it. -/
theorem exists_reached (h : Linked (front ++ back) s t) (hs : s ∈ front) (ht : t ∉ front) :
    ∃ u ∈ back, Reached front u := by
  induction h with
  | refl => exact absurd hs ht
  | @tail u v _ huv ih =>
    obtain ⟨-, hv, hshares⟩ := huv
    by_cases hu : u ∈ front
    · exact ⟨v, (List.mem_append.1 hv).resolve_left ht, u, hu, hshares⟩
    · exact ih hu

/-- While a component is open, what is taken next is linked to what has been taken. -/
theorem Greedy.exists_linked (h : Greedy emitted [] (front ++ s :: back))
    (hnodup : (front ++ s :: back).Nodup) {x y : FragmentSet} (hx : x ∈ front) (hy : y ∈ s :: back)
    (hxy : Linked (front ++ s :: back) x y) : ∃ z ∈ front, Linked (front ++ s :: back) z s := by
  have hyfront : y ∉ front := fun hmem => (List.nodup_append.1 hnodup).2.2 y hmem y hy rfl
  obtain ⟨u, hu, hreached⟩ := exists_reached hxy hx hyfront
  obtain ⟨hs, hnext⟩ := (h front s back rfl).eligible
  obtain ⟨z, hz, hshares⟩ := hnext.resolve_right fun hnone => hnone u hu hreached
  exact ⟨z, hz, .single ⟨List.mem_append_left _ hz, List.mem_append_right _ hs, hshares⟩⟩

/-- At most one component is open: what has been taken and is linked to something that is left is
linked to each other. -/
theorem Greedy.linked_of_open (h : Greedy emitted [] plan) (hnodup : plan.Nodup)
    (hplan : plan = front ++ back) {x x' y y' : FragmentSet} (hx : x ∈ front) (hx' : x' ∈ front)
    (hy : y ∈ back) (hy' : y' ∈ back) (hxy : Linked plan x y) (hxy' : Linked plan x' y') :
    Linked plan x x' := by
  induction front using List.reverseRecOn generalizing back x x' y y' with
  | nil => cases hx
  | append_singleton front s ih =>
    rw [List.append_assoc, List.singleton_append] at hplan
    have hstep {z w : FragmentSet} (hz : z ∈ front) (hw : w ∈ back) (hzw : Linked plan z w) :
        Linked plan s z := by
      subst hplan
      obtain ⟨u, hu, hus⟩ := h.exists_linked hnodup hz (List.mem_cons_of_mem _ hw) hzw
      exact hus.symm.trans (ih rfl hu hz List.mem_cons_self (List.mem_cons_of_mem _ hw) hus hzw)
    simp only [List.mem_append, List.mem_singleton] at hx hx'
    rcases hx with hx | rfl <;> rcases hx' with hx' | rfl
    · exact ih hplan hx hx' (List.mem_cons_of_mem _ hy) (List.mem_cons_of_mem _ hy') hxy hxy'
    · exact (hstep hx hy hxy).symm
    · exact hstep hx' hy' hxy'
    · exact .refl

theorem Greedy.contiguous (h : Greedy emitted [] plan) (hnodup : plan.Nodup) :
    Contiguous (Linked plan) plan := by
  rintro front s mid t back hplan hst u hu
  obtain ⟨before, after, rfl⟩ := List.append_of_mem hu
  -- The plan as it is when `u` is taken: `s` has been taken, and `t` is left.
  have hsplit : plan = (front ++ s :: before) ++ u :: (after ++ t :: back) := by
    simpa using hplan
  have hs : s ∈ front ++ s :: before := by simp
  have ht : t ∈ u :: (after ++ t :: back) := by simp
  obtain ⟨z, hz, hzu⟩ : ∃ z ∈ front ++ s :: before, Linked plan z u := by
    rw [hsplit] at h hnodup hst ⊢
    exact h.exists_linked hnodup hs ht hst
  exact (h.linked_of_open hnodup hsplit hs hz ht List.mem_cons_self hst hzu).trans hzu

theorem linked_ofSets (ordered : Bool) (sets : List FragmentSet) :
    Linked (ofSets ordered sets).sets = Linked sets := by
  have hadjacent : Adjacent (ofSets ordered sets).sets = Adjacent sets := by
    funext s t
    simp only [Adjacent, mem_ofSets]
  rw [Linked, hadjacent, Linked]

/-- Where nothing has been taken, everything may be. -/
theorem Greedy.cost_head_le (h : Greedy emitted [] (s :: back)) (ht : t ∈ s :: back) :
    s.cost ≤ t.cost := by
  have heligible : Eligible [] (s :: back) t := ⟨ht, .inr fun u _ => by simp [Reached]⟩
  rcases rank_le_rank.1 ((h [] s back rfl).least t heligible) with hlt | ⟨heq, -⟩
  · exact hlt.le
  · exact heq.le

/-- A plan has each constraint once, in the order of emission if it is not asked to order them. If
it is, each constraint is the cheapest of those that are reached, or of all where none is, and of
equally cheap ones the one that was emitted first; so it takes one component after another, and it
starts from a constraint of the least cost. -/
theorem ofSets_walks (sets : List FragmentSet) :
    (∀ ordered, (ofSets ordered sets).sets.Perm sets.eraseDups) ∧
      (ofSets false sets).sets.Pairwise (fun s t => sets.idxOf s < sets.idxOf t) ∧
      Greedy sets [] (ofSets true sets).sets ∧
      Contiguous (Linked sets) (ofSets true sets).sets ∧
      ∀ s ∈ (ofSets true sets).sets.head?, ∀ t ∈ sets, s.cost ≤ t.cost := by
  have hgreedy := greedy_ofSets sets
  refine ⟨fun ordered => ofSets_perm ordered sets, pairwise_idxOf_eraseDups sets, hgreedy, ?_,
    fun s hs t ht => ?_⟩
  · rw [← linked_ofSets true sets]
    exact hgreedy.contiguous (nodup_sets true sets)
  · obtain ⟨back, hback⟩ := List.head?_eq_some_iff.1 hs
    rw [← @mem_ofSets true, hback] at ht
    rw [hback] at hgreedy
    exact hgreedy.cost_head_le ht

/-- The label costs less than following an edge from `$y`, but it waits for the component that the
id has opened. -/
example :
    let owns (owner owned : String) : FragmentSet :=
      .bothWays .has (.has (.named owner) (.named owned))
    let person : FragmentSet := ⟨.label, [.label (.named "t") ⟨"person"⟩]⟩
    let third : FragmentSet := ⟨.id, [.id (.named "y") ⟨3⟩]⟩
    (ofSets true [owns "x" "n", person, owns "y" "m", third]).sets =
      [third, owns "y" "m", person, owns "x" "n"] := by
  decide +kernel

end GraphQuery.TraversalPlan
