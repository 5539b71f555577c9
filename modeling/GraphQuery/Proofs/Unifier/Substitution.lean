import GraphQuery.Proofs.Collection.Lists
import GraphQuery.Proofs.Query.Renaming
import GraphQuery.Unifier.Basic
import Mathlib.Data.Finset.Card

/-!
# Substitutions as sets of pairs

A substitution is determined by its pairs, and so is its place among other substitutions. It is
bijective exactly when no two pairs agree on one side alone; then every variable that it sends has
one image, and sending back is the inverse.
-/

namespace GraphQuery

instance : Std.LawfulEqCmp (compareLex (compareOn Prod.fst) (compareOn Prod.snd) :
    Variable × List Variable → Variable × List Variable → Ordering) where
  eq_of_compare {a b} h := by
    simp only [compareLex_eq_eq, compareOn] at h
    exact Prod.ext (Std.LawfulEqOrd.eq_of_compare h.1) (Std.LawfulEqOrd.eq_of_compare h.2)

namespace Substitution

variable {s t : Substitution} {v w : Variable} {pairs : List (Variable × Variable)}

@[ext] theorem ext (h : ∀ pair, pair ∈ s.pairs ↔ pair ∈ t.pairs) : s = t := by
  cases s
  cases t
  exact congrArg mk (SortedSet.ext h)

@[simp] theorem mem_ofPairs {pair : Variable × Variable} :
    pair ∈ (ofPairs pairs).pairs ↔ pair ∈ pairs :=
  SortedSet.mem_ofList

theorem mem_keys : v ∈ s.keys ↔ ∃ w, (v, w) ∈ s.pairs := by
  simp [keys]

theorem mem_values : w ∈ s.values ↔ ∃ v, (v, w) ∈ s.pairs := by
  rw [values, SortedSet.mem_toList, SortedSet.mem_ofList]
  simp

theorem mem_targets : w ∈ s.targets v ↔ (v, w) ∈ s.pairs := by
  simp [targets]

@[simp] theorem mem_inverse : (v, w) ∈ s.inverse.pairs ↔ (w, v) ∈ s.pairs := by
  simp [inverse]

theorem inverse_inverse (s : Substitution) : s.inverse.inverse = s := by
  apply ext
  rintro ⟨v, w⟩
  rw [mem_inverse, mem_inverse]

@[simp] theorem mem_merge {pair : Variable × Variable} :
    pair ∈ (s.merge t).pairs ↔ pair ∈ s.pairs ∨ pair ∈ t.pairs :=
  SortedSet.mem_union

@[simp] theorem not_mem_identity {pair : Variable × Variable} : pair ∉ identity.pairs :=
  SortedSet.not_mem_empty

theorem containsAll_iff : s.containsAll t = true ↔ ∀ pair ∈ t.pairs, pair ∈ s.pairs := by
  simp [containsAll]

theorem flatMap_group (pair : Variable × Variable) (gs : List (Variable × List Variable)) :
    ((group pair gs).flatMap fun g => g.2.map (g.1, ·)) =
      pair :: gs.flatMap fun g => g.2.map (g.1, ·) := by
  cases gs with
  | nil => rfl
  | cons g gs =>
    rw [group]
    split
    · rename_i h
      rw [List.flatMap_cons, List.flatMap_cons, List.map_cons, h]
      rfl
    · rfl

/-- The groups of a substitution list its pairs. -/
theorem flatMap_grouped (s : Substitution) :
    (s.grouped.flatMap fun g => g.2.map (g.1, ·)) = s.pairs.toList := by
  rw [grouped]
  induction s.pairs.toList with
  | nil => rfl
  | cons pair pairs ih => rw [List.foldr_cons, flatMap_group, ih]

theorem grouped_injective (h : s.grouped = t.grouped) : s = t := by
  apply ext
  intro pair
  rw [← SortedSet.mem_toList, ← SortedSet.mem_toList, ← flatMap_grouped, h, flatMap_grouped]

instance : Std.LawfulEqOrd Substitution :=
  letI : Ord (Variable × List Variable) := lexOrd
  letI : Std.LawfulEqOrd (Variable × List Variable) :=
    inferInstanceAs (Std.LawfulEqCmp (compareLex (compareOn Prod.fst) (compareOn Prod.snd)))
  letI : Std.TransOrd (Variable × List Variable) :=
    inferInstanceAs (Std.TransCmp (compareLex (compareOn Prod.fst) (compareOn Prod.snd)))
  ⟨fun {_ _} h => grouped_injective (Std.LawfulEqOrd.eq_of_compare h)⟩

/-- No variable is sent to two, and no two variables to the same. -/
def OneToOne (s : Substitution) : Prop :=
  ∀ p ∈ s.pairs, ∀ q ∈ s.pairs, p.1 = q.1 ↔ p.2 = q.2

/-- What becomes of a variable that is sent to one variable at most. -/
def image (s : Substitution) (v : Variable) : Variable := (s.apply v).headD v

theorem OneToOne.image_eq (hs : s.OneToOne) (h : (v, w) ∈ s.pairs) : s.image v = w := by
  have hsent : w ∈ s.targets v := mem_targets.2 h
  rw [image, apply]
  cases htargets : s.targets v with
  | nil =>
    rw [htargets] at hsent
    cases hsent
  | cons x xs =>
    have hx : (v, x) ∈ s.pairs := by
      rw [← mem_targets, htargets]
      exact List.mem_cons_self
    exact (hs (v, x) hx (v, w) h).1 rfl

theorem OneToOne.mem_pairs_iff (hs : s.OneToOne) :
    (v, w) ∈ s.pairs ↔ v ∈ s.keys ∧ s.image v = w := by
  constructor
  · intro h
    exact ⟨mem_keys.2 ⟨w, h⟩, hs.image_eq h⟩
  · rintro ⟨hkey, himage⟩
    obtain ⟨x, hx⟩ := mem_keys.1 hkey
    rw [← himage, hs.image_eq hx]
    exact hx

theorem OneToOne.inverse (hs : s.OneToOne) : s.inverse.OneToOne := by
  intro p hp q hq
  exact (hs p.swap (mem_inverse.1 hp) q.swap (mem_inverse.1 hq)).symm

theorem OneToOne.image_inverse_image (hs : s.OneToOne) (h : v ∈ s.keys) :
    s.inverse.image (s.image v) = v :=
  hs.inverse.image_eq (mem_inverse.2 (hs.mem_pairs_iff.2 ⟨h, rfl⟩))

/-- A one-to-one substitution does to what it sends the same as some permutation. -/
theorem OneToOne.exists_perm (hs : s.OneToOne) :
    ∃ σ : Equiv.Perm Variable, ∀ v ∈ s.keys, s.image v = σ v := by
  have hpairs : (Renaming.mk s.pairs.toList).OneToOne := by
    apply s.pairs.nodup_toList.imp_of_mem
    intro p q hp hq hne
    constructor
    · intro h
      exact hne (Prod.ext h ((hs p hp q hq).1 h))
    · intro h
      exact hne (Prod.ext ((hs p hp q hq).2 h) h)
  obtain ⟨σ, hσ⟩ := hpairs.exists_perm
  refine ⟨σ, ?_⟩
  intro v hv
  exact (hσ (v, s.image v) (hs.mem_pairs_iff.2 ⟨hv, rfl⟩)).symm

theorem length_keys (s : Substitution) :
    s.keys.length = (s.pairs.toList.toFinset.image Prod.fst).card := by
  have hnodup : s.keys.Nodup := nodup_eraseDups _
  rw [← List.toFinset_card_of_nodup hnodup]
  congr 1
  ext v
  simp [mem_keys]

theorem length_values (s : Substitution) :
    s.values.length = (s.pairs.toList.toFinset.image Prod.snd).card := by
  have hnodup : s.values.Nodup := SortedSet.nodup_toList _
  rw [← List.toFinset_card_of_nodup hnodup]
  congr 1
  ext w
  simp [mem_values]

theorem nodup_targets (s : Substitution) (v : Variable) : (s.targets v).Nodup := by
  apply (s.pairs.nodup_toList.filter _).map_on
  intro p hp q hq hpq
  simp only [List.mem_filter, decide_eq_true_eq] at hp hq
  exact Prod.ext (hp.2.trans hq.2.symm) hpq

theorem all_length_targets_iff :
    (s.keys.all fun v => (s.targets v).length = 1) = true ↔
      ∀ p ∈ s.pairs, ∀ q ∈ s.pairs, p.1 = q.1 → p = q := by
  rw [List.all_eq_true]
  constructor
  · intro h p hp q hq hpq
    have hone : (s.targets p.1).length = 1 := of_decide_eq_true (h p.1 (mem_keys.2 ⟨p.2, hp⟩))
    obtain ⟨w, hw⟩ := List.length_eq_one_iff.1 hone
    have hp2 : p.2 ∈ s.targets p.1 := mem_targets.2 hp
    have hq2 : q.2 ∈ s.targets p.1 := mem_targets.2 (hpq ▸ hq)
    rw [hw, List.mem_singleton] at hp2 hq2
    exact Prod.ext hpq (hp2.trans hq2.symm)
  · intro h v hv
    obtain ⟨w, hw⟩ := mem_keys.1 hv
    have honly (x : Variable) : x ∈ s.targets v ↔ x ∈ [w] := by
      rw [mem_targets, List.mem_singleton]
      constructor
      · intro hx
        exact congrArg Prod.snd (h (v, x) hx (v, w) hw rfl)
      · rintro rfl
        exact hw
    have hperm : (s.targets v).Perm [w] :=
      (List.perm_ext_iff_of_nodup (s.nodup_targets v) (List.nodup_singleton w)).2 honly
    exact decide_eq_true hperm.length_eq

theorem isBijective_iff : s.isBijective = true ↔ s.OneToOne := by
  rw [isBijective, Bool.and_eq_true, all_length_targets_iff, decide_eq_true_iff, length_keys,
    length_values]
  have hinjOn (f : Variable × Variable → Variable) :
      (s.pairs.toList.toFinset.image f).card = s.pairs.toList.toFinset.card ↔
        ∀ p ∈ s.pairs, ∀ q ∈ s.pairs, f p = f q → p = q := by
    rw [Finset.card_image_iff]
    simp only [Set.InjOn, Finset.mem_coe, List.mem_toFinset, SortedSet.mem_toList]
  constructor
  · rintro ⟨hfst, hlength⟩ p hp q hq
    rw [(hinjOn Prod.fst).2 hfst, hinjOn Prod.snd] at hlength
    exact ⟨fun h => congrArg Prod.snd (hfst p hp q hq h),
      fun h => congrArg Prod.fst (hlength p hp q hq h)⟩
  · intro h
    have hfst : ∀ p ∈ s.pairs, ∀ q ∈ s.pairs, p.1 = q.1 → p = q :=
      fun p hp q hq hpq => Prod.ext hpq ((h p hp q hq).1 hpq)
    refine ⟨hfst, ?_⟩
    rw [(hinjOn Prod.fst).2 hfst, hinjOn Prod.snd]
    exact fun p hp q hq hpq => Prod.ext ((h p hp q hq).2 hpq) hpq

end Substitution

theorem Unifier.targets?_mapping (s : Substitution) (v : Variable) :
    (mapping s).targets? v = if s.targets v = [] then none else some (s.targets v) := by
  change (if (s.targets v).isEmpty = true then none else some (s.targets v)) = _
  simp only [List.isEmpty_iff]

namespace MultiUnifier

variable {m n : MultiUnifier} {s : Substitution} {ss : List Substitution}

@[ext] theorem ext (h : ∀ s, s ∈ m.members ↔ s ∈ n.members) : m = n := by
  cases m
  cases n
  exact congrArg mk (SortedSet.ext h)

@[simp] theorem mem_ofSubstitutions : s ∈ (ofSubstitutions ss).members ↔ s ∈ ss := by
  rw [ofSubstitutions, SortedSet.mem_ofList, List.mem_mergeSort]

theorem mem_nonExistent : s ∉ nonExistent.members := SortedSet.not_mem_empty

theorem mem_inverse : s ∈ m.inverse.members ↔ ∃ t ∈ m.members, t.inverse = s := by
  rw [inverse, mem_ofSubstitutions, List.mem_map]
  rfl

theorem mem_toList {u : Unifier} : u ∈ m.toList ↔ ∃ s ∈ m.members, .mapping s = u := List.mem_map

end MultiUnifier

end GraphQuery
