import GraphQuery.Proofs.Collection.Lists
import GraphQuery.Query.Equivalence
import Mathlib.Logic.Equiv.Basic

/-!
# Renamings that grow

A renaming that is extended pair by pair stays one-to-one, and is never given up as long as all pairs
belong to one injective map. What it has collected in the end extends to a permutation of all
variables.
-/

namespace GraphQuery.Renaming

variable {r r' : Renaming} {pair : Variable × Variable} {pairs : List (Variable × Variable)}
  {f : Variable → Variable}

/-- No two pairs share a variable on the same side. -/
def OneToOne (r : Renaming) : Prop := r.pairs.Pairwise fun p q => p.1 ≠ q.1 ∧ p.2 ≠ q.2

def Within (r : Renaming) (f : Variable → Variable) : Prop := ∀ pair ∈ r.pairs, f pair.1 = pair.2

theorem oneToOne_empty : empty.OneToOne := .nil

theorem within_empty (f : Variable → Variable) : empty.Within f := by
  intro pair hpair
  cases hpair

theorem add?_eq_some_iff :
    r.add? pair = some r' ↔ (pair ∈ r.pairs ∧ r' = r) ∨
      (pair ∉ r.pairs ∧ (∀ other ∈ r.pairs, other.1 ≠ pair.1 ∧ other.2 ≠ pair.2) ∧
        r' = ⟨pair :: r.pairs⟩) := by
  have hnew : (r.pairs.any fun p => p.1 = pair.1 || p.2 = pair.2) = true ↔
      ¬ ∀ other ∈ r.pairs, other.1 ≠ pair.1 ∧ other.2 ≠ pair.2 := by
    simp only [List.any_eq_true, Bool.or_eq_true, decide_eq_true_eq, not_forall, exists_prop,
      not_and_or, not_not]
  rw [add?]
  by_cases hmem : pair ∈ r.pairs
  · simp [hmem, eq_comm]
  · rw [if_neg hmem]
    by_cases hfree : ∀ other ∈ r.pairs, other.1 ≠ pair.1 ∧ other.2 ≠ pair.2
    · rw [if_neg (fun h => hnew.1 h hfree), Option.some.injEq, eq_comm]
      exact ⟨fun h => .inr ⟨hmem, hfree, h⟩, fun h => (h.resolve_left fun h => hmem h.1).2.2⟩
    · rw [if_pos (hnew.2 hfree)]
      constructor
      · intro h
        cases h
      · rintro (⟨h, -⟩ | ⟨-, h, -⟩)
        · exact absurd h hmem
        · exact absurd h hfree

theorem mem_of_add? (h : r.add? pair = some r') {other : Variable × Variable} :
    other ∈ r'.pairs ↔ other = pair ∨ other ∈ r.pairs := by
  rcases add?_eq_some_iff.1 h with ⟨hmem, rfl⟩ | ⟨-, -, rfl⟩
  · constructor
    · exact .inr
    · rintro (rfl | hother)
      · exact hmem
      · exact hother
  · exact List.mem_cons

theorem OneToOne.add? (hr : r.OneToOne) (h : r.add? pair = some r') : r'.OneToOne := by
  rcases add?_eq_some_iff.1 h with ⟨-, rfl⟩ | ⟨-, hnew, rfl⟩
  · exact hr
  · apply List.Pairwise.cons _ hr
    intro other hother
    exact ⟨(hnew other hother).1.symm, (hnew other hother).2.symm⟩

/-- A pair of an injective map contradicts no others of the map. -/
theorem Within.exists_add? (hr : r.Within f) (hf : Function.Injective f)
    (hpair : f pair.1 = pair.2) : ∃ r', r.add? pair = some r' ∧ r'.Within f := by
  by_cases hmem : pair ∈ r.pairs
  · exact ⟨r, add?_eq_some_iff.2 (.inl ⟨hmem, rfl⟩), hr⟩
  · refine ⟨⟨pair :: r.pairs⟩, add?_eq_some_iff.2 (.inr ⟨hmem, ?_, rfl⟩), ?_⟩
    · intro other hother
      have hne : other.1 ≠ pair.1 := by
        intro heq
        have hsame : other = pair := Prod.ext heq (by rw [← hpair, ← hr other hother, heq])
        exact hmem (hsame ▸ hother)
      refine ⟨hne, ?_⟩
      rw [← hpair, ← hr other hother]
      exact hf.ne hne
    · intro other hother
      rcases List.mem_cons.1 hother with rfl | hother
      · exact hpair
      · exact hr other hother

theorem addAll?_cons : r.addAll? (pair :: pairs) = (r.add? pair).bind (·.addAll? pairs) :=
  List.foldlM_cons

theorem mem_of_addAll? (h : r.addAll? pairs = some r') {other : Variable × Variable} :
    other ∈ r'.pairs ↔ other ∈ pairs ∨ other ∈ r.pairs := by
  induction pairs generalizing r with
  | nil =>
    obtain rfl := Option.some.inj h
    simp
  | cons pair pairs ih =>
    rw [addAll?_cons, Option.bind_eq_some_iff] at h
    obtain ⟨next, hnext, h⟩ := h
    rw [ih h, mem_of_add? hnext, List.mem_cons, or_assoc, or_left_comm]

theorem OneToOne.addAll? (hr : r.OneToOne) (h : r.addAll? pairs = some r') : r'.OneToOne := by
  induction pairs generalizing r with
  | nil =>
    obtain rfl := Option.some.inj h
    exact hr
  | cons pair pairs ih =>
    rw [addAll?_cons, Option.bind_eq_some_iff] at h
    obtain ⟨next, hnext, h⟩ := h
    exact ih (hr.add? hnext) h

theorem Within.exists_addAll? (hr : r.Within f) (hf : Function.Injective f)
    (hpairs : ∀ pair ∈ pairs, f pair.1 = pair.2) :
    ∃ r', r.addAll? pairs = some r' ∧ r'.Within f := by
  induction pairs generalizing r with
  | nil => exact ⟨r, rfl, hr⟩
  | cons pair pairs ih =>
    obtain ⟨next, hnext, hwithin⟩ := hr.exists_add? hf (hpairs pair List.mem_cons_self)
    obtain ⟨r', hr', hwithin'⟩ := ih hwithin fun p hp => hpairs p (List.mem_cons_of_mem _ hp)
    refine ⟨r', ?_, hwithin'⟩
    rw [addAll?_cons, hnext, Option.bind_some, hr']

/-- A one-to-one correspondence of some variables extends to a permutation of all. -/
theorem OneToOne.exists_perm (hr : r.OneToOne) : ∃ σ : Equiv.Perm Variable, r.Within σ := by
  obtain ⟨pairs⟩ := r
  induction pairs with
  | nil => exact ⟨Equiv.refl _, within_empty _⟩
  | cons pair pairs ih =>
    obtain ⟨hpair, hpairs⟩ := List.pairwise_cons.1 hr
    obtain ⟨σ, hσ⟩ := ih hpairs
    -- The pair is right after a swap, which leaves the images of the other pairs alone.
    refine ⟨σ.trans (Equiv.swap (σ pair.1) pair.2), ?_⟩
    intro other hother
    rw [Equiv.trans_apply]
    rcases List.mem_cons.1 hother with rfl | hother
    · exact Equiv.swap_apply_left _ _
    · have hne := hpair other hother
      rw [hσ other hother]
      apply Equiv.swap_apply_of_ne_of_ne
      · rw [← hσ other hother]
        exact σ.injective.ne hne.1.symm
      · exact hne.2.symm

/-- A map that is one-to-one on some variables extends to a permutation that respects pairs of other
variables. -/
theorem exists_perm_extending {named : List Variable}
    (hf : ∀ v ∈ named, ∀ w ∈ named, f v = f w → v = w) (hfst : (pairs.map Prod.fst).Nodup)
    (hsnd : (pairs.map Prod.snd).Nodup)
    (hnew : ∀ v ∈ named, v ∉ pairs.map Prod.fst ∧ f v ∉ pairs.map Prod.snd) :
    ∃ σ : Equiv.Perm Variable, (∀ v ∈ named, σ v = f v) ∧ ∀ pair ∈ pairs, σ pair.1 = pair.2 := by
  have hone : (Renaming.mk (named.eraseDups.map (fun v => (v, f v)) ++ pairs)).OneToOne := by
    apply List.pairwise_append.2
    refine ⟨?_, ?_, ?_⟩
    · apply List.pairwise_map.2
      apply (nodup_eraseDups named).imp_of_mem
      intro v w hv hw hne
      exact ⟨hne, fun heq => hne (hf v (List.mem_eraseDups.1 hv) w (List.mem_eraseDups.1 hw) heq)⟩
    · exact (List.pairwise_map.1 hfst).and (List.pairwise_map.1 hsnd)
    · intro p hp q hq
      obtain ⟨v, hv, rfl⟩ := List.mem_map.1 hp
      obtain ⟨hv, hfv⟩ := hnew v (List.mem_eraseDups.1 hv)
      exact ⟨fun heq => hv (List.mem_map.2 ⟨q, hq, heq.symm⟩),
        fun heq => hfv (List.mem_map.2 ⟨q, hq, heq.symm⟩)⟩
  obtain ⟨σ, hσ⟩ := hone.exists_perm
  refine ⟨σ, ?_, fun pair hpair => hσ pair (List.mem_append_right _ hpair)⟩
  intro v hv
  exact hσ (v, f v) (List.mem_append_left _ (List.mem_map_of_mem (List.mem_eraseDups.2 hv)))

/-- A map that is one-to-one on some variables does the same to them as some permutation. -/
theorem exists_perm_of_injOn {named : List Variable}
    (hf : ∀ v ∈ named, ∀ w ∈ named, f v = f w → v = w) :
    ∃ σ : Equiv.Perm Variable, ∀ v ∈ named, σ v = f v := by
  have hnone : (([] : List (Variable × Variable)).map Prod.fst).Nodup := .nil
  have hnone' : (([] : List (Variable × Variable)).map Prod.snd).Nodup := .nil
  obtain ⟨σ, hσ, -⟩ := exists_perm_extending hf hnone hnone'
    fun _ _ => ⟨List.not_mem_nil, List.not_mem_nil⟩
  exact ⟨σ, hσ⟩

end GraphQuery.Renaming
