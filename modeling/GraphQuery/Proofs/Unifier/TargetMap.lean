import GraphQuery.Proofs.Unifier.Substitution

/-!
# Substitutions as maps of target sets

A finite set of pairs of variables can be held as a map from each variable that is sent to the set
of its targets. No variable has the empty set there: operations on maps that are tight in this sense
give tight maps. A tight map is determined by its pairs, so that the operations on the maps are
those on the sets of pairs.
-/

namespace GraphQuery

/-- The targets of each variable that is sent. -/
abbrev TargetMap := SortedMap Variable (SortedSet Variable)

namespace TargetMap

/-- Adds a target to those of a variable, or to none if it has not been sent yet. -/
def add (m : TargetMap) (pair : Variable × Variable) : TargetMap :=
  m.update pair.1 .empty (·.insert pair.2)

def ofPairs (pairs : List (Variable × Variable)) : TargetMap := pairs.foldl add .empty

/-- The pairs in the order of the variables that are sent, and then of their targets. -/
def pairs (m : TargetMap) : List (Variable × Variable) :=
  m.toList.flatMap fun e => e.2.toList.map fun w => (e.1, w)

/-- Adds the targets of an entry to those of its variable. -/
def extend (m : TargetMap) (e : Variable × SortedSet Variable) : TargetMap :=
  m.update e.1 .empty (·.union e.2)

def merge (m n : TargetMap) : TargetMap := n.toList.foldl extend m

def inverse (m : TargetMap) : TargetMap := ofPairs (m.pairs.map Prod.swap)

variable {m n : TargetMap} {v w : Variable} {pair : Variable × Variable}

/-- The map sends the one variable to the other. -/
def Sends (m : TargetMap) (v w : Variable) : Prop :=
  ∃ targets, m.get? v = some targets ∧ w ∈ targets

/-- No variable has the empty set of targets. -/
def Tight (m : TargetMap) : Prop := ∀ v targets, m.get? v = some targets → ∃ w, w ∈ targets

theorem Tight.ext (hm : m.Tight) (hn : n.Tight) (h : ∀ v w, m.Sends v w ↔ n.Sends v w) : m = n := by
  ext v : 1
  have hsends (w : Variable) := h v w
  simp only [Sends] at hsends
  cases hmv : m.get? v with
  | none =>
    cases hnv : n.get? v with
    | none => rfl
    | some targets' =>
      obtain ⟨w, hw⟩ := hn v targets' hnv
      obtain ⟨targets, htargets, -⟩ := (hsends w).2 ⟨targets', hnv, hw⟩
      rw [hmv] at htargets
      cases htargets
  | some targets =>
    cases hnv : n.get? v with
    | none =>
      obtain ⟨w, hw⟩ := hm v targets hmv
      obtain ⟨targets', htargets', -⟩ := (hsends w).1 ⟨targets, hmv, hw⟩
      rw [hnv] at htargets'
      cases htargets'
    | some targets' =>
      apply congrArg some
      ext w
      simpa [hmv, hnv] using hsends w

theorem not_sends_empty : ¬Sends .empty v w := by
  rintro ⟨targets, htargets, -⟩
  cases htargets

theorem tight_empty : Tight .empty := by
  intro v targets htargets
  cases htargets

theorem mem_getD : w ∈ (m.get? v).getD .empty ↔ m.Sends v w := by
  rw [Sends]
  cases m.get? v <;> simp

section Update

variable {x : Variable} {f : SortedSet Variable → SortedSet Variable} {P : Variable → Prop}

theorem sends_update (hf : ∀ targets w, w ∈ f targets ↔ w ∈ targets ∨ P w) :
    Sends (m.update x .empty f) v w ↔ m.Sends v w ∨ x = v ∧ P w := by
  rw [Sends, SortedMap.get?_update]
  by_cases h : x = v
  · subst h
    simp [hf, mem_getD]
  · simp [h, Sends]

theorem Tight.update (hm : m.Tight) (hf : ∀ targets, ∃ w, w ∈ f targets) :
    Tight (m.update x .empty f) := by
  intro v targets htargets
  rw [SortedMap.get?_update] at htargets
  split at htargets
  · obtain rfl := Option.some.inj htargets
    exact hf _
  · exact hm v targets htargets

end Update

theorem sends_add : (m.add pair).Sends v w ↔ m.Sends v w ∨ pair = (v, w) := by
  rw [add, sends_update (P := (pair.2 = ·)) (by simp [or_comm, eq_comm]), Prod.ext_iff]

theorem Tight.add (hm : m.Tight) : (m.add pair).Tight :=
  Tight.update hm fun _ => ⟨pair.2, SortedSet.mem_insert.2 (.inl rfl)⟩

theorem sends_foldl_add (pairs : List (Variable × Variable)) :
    (pairs.foldl add m).Sends v w ↔ m.Sends v w ∨ (v, w) ∈ pairs := by
  induction pairs generalizing m with
  | nil => simp
  | cons pair pairs ih =>
    rw [List.foldl_cons, ih, sends_add, List.mem_cons, or_assoc, eq_comm (a := pair)]

theorem Tight.foldl_add (hm : m.Tight) (pairs : List (Variable × Variable)) :
    (pairs.foldl TargetMap.add m).Tight := by
  induction pairs generalizing m with
  | nil => exact hm
  | cons pair pairs ih => exact ih hm.add

theorem sends_ofPairs {pairs : List (Variable × Variable)} :
    (ofPairs pairs).Sends v w ↔ (v, w) ∈ pairs := by
  rw [ofPairs, sends_foldl_add, or_iff_right not_sends_empty]

theorem tight_ofPairs (pairs : List (Variable × Variable)) : (ofPairs pairs).Tight :=
  tight_empty.foldl_add pairs

theorem sends_iff : m.Sends v w ↔ ∃ targets, (v, targets) ∈ m.toList ∧ w ∈ targets := by
  simp only [Sends, SortedMap.mem_toList_iff]

theorem sends_foldl_extend (es : List (Variable × SortedSet Variable)) :
    (es.foldl extend m).Sends v w ↔ m.Sends v w ∨ ∃ targets, (v, targets) ∈ es ∧ w ∈ targets := by
  induction es generalizing m with
  | nil => simp
  | cons e es ih =>
    have hextend : (m.extend e).Sends v w ↔ m.Sends v w ∨ e.1 = v ∧ w ∈ e.2 :=
      sends_update fun targets w => SortedSet.mem_union
    rw [List.foldl_cons, ih, hextend, or_assoc]
    simp only [List.mem_cons, or_and_right, exists_or, Prod.ext_iff]
    simp [eq_comm]

theorem Tight.foldl_extend (hm : m.Tight) (es : List (Variable × SortedSet Variable))
    (hes : ∀ e ∈ es, ∃ w, w ∈ e.2) : (es.foldl extend m).Tight := by
  induction es generalizing m with
  | nil => exact hm
  | cons e es ih =>
    rw [List.forall_mem_cons] at hes
    obtain ⟨w, hw⟩ := hes.1
    have hextend : (m.extend e).Tight :=
      Tight.update hm fun targets => ⟨w, SortedSet.mem_union.2 (.inr hw)⟩
    exact ih hextend hes.2

theorem sends_merge : (m.merge n).Sends v w ↔ m.Sends v w ∨ n.Sends v w := by
  rw [merge, sends_foldl_extend, sends_iff (m := n)]

theorem Tight.merge (hm : m.Tight) (hn : n.Tight) : (m.merge n).Tight := by
  apply hm.foldl_extend
  rintro ⟨v, targets⟩ he
  exact hn v targets (SortedMap.mem_toList_iff.1 he)

theorem mem_pairs : (v, w) ∈ m.pairs ↔ m.Sends v w := by
  rw [sends_iff, pairs, List.mem_flatMap]
  simp [Prod.ext_iff]

theorem sends_inverse : m.inverse.Sends v w ↔ m.Sends w v := by
  rw [inverse, sends_ofPairs, ← mem_pairs]
  simp

theorem tight_inverse (m : TargetMap) : m.inverse.Tight := tight_ofPairs _

theorem compare_of_fst_lt {p q : Variable × Variable} (h : compare p.1 q.1 = .lt) :
    compare p q = .lt := by
  change (compare p.1 q.1).then (compare p.2 q.2) = .lt
  rw [h]
  rfl

theorem compare_of_fst_eq {p q : Variable × Variable} (h : p.1 = q.1) :
    compare p q = compare p.2 q.2 := by
  change (compare p.1 q.1).then (compare p.2 q.2) = _
  rw [h]
  simp

theorem pairwise_pairs (m : TargetMap) : m.pairs.Pairwise fun p q => compare p q = .lt := by
  rw [pairs, List.pairwise_flatMap]
  constructor
  · rintro ⟨v, targets⟩ -
    rw [List.pairwise_map]
    refine targets.ascending.imp fun {w x} hlt => ?_
    exact (compare_of_fst_eq (p := (v, w)) (q := (v, x)) rfl).trans hlt
  · refine m.ascending.imp fun {d e} hlt => ?_
    intro p hp q hq
    obtain ⟨v, -, rfl⟩ := List.mem_map.1 hp
    obtain ⟨w, -, rfl⟩ := List.mem_map.1 hq
    exact compare_of_fst_lt hlt

end TargetMap

namespace Substitution

variable {s t : Substitution} {v w : Variable}

def targetMap (s : Substitution) : TargetMap := .ofPairs s.pairs.toList

theorem tight_targetMap (s : Substitution) : s.targetMap.Tight := TargetMap.tight_ofPairs _

theorem sends_targetMap : s.targetMap.Sends v w ↔ (v, w) ∈ s.pairs := TargetMap.sends_ofPairs

/-- A tight map is that of the substitution with the same pairs. -/
theorem eq_targetMap {m : TargetMap} (hm : m.Tight) (h : ∀ v w, m.Sends v w ↔ (v, w) ∈ s.pairs) :
    m = s.targetMap :=
  hm.ext s.tight_targetMap fun v w => (h v w).trans sends_targetMap.symm

theorem targetMap_injective (h : s.targetMap = t.targetMap) : s = t := by
  ext ⟨v, w⟩
  rw [← sends_targetMap, h, sends_targetMap]

/-- Each way to make a map makes that of the substitution made in the same way. -/
theorem targetMap_ofPairs (pairs : List (Variable × Variable)) :
    TargetMap.ofPairs pairs = (ofPairs pairs).targetMap := by
  apply eq_targetMap (TargetMap.tight_ofPairs pairs)
  intro v w
  rw [TargetMap.sends_ofPairs, mem_ofPairs]

theorem targetMap_merge (s t : Substitution) :
    s.targetMap.merge t.targetMap = (s.merge t).targetMap := by
  apply eq_targetMap (s.tight_targetMap.merge t.tight_targetMap)
  intro v w
  rw [TargetMap.sends_merge, sends_targetMap, sends_targetMap, mem_merge]

theorem targetMap_inverse (s : Substitution) : s.targetMap.inverse = s.inverse.targetMap := by
  apply eq_targetMap s.targetMap.tight_inverse
  intro v w
  rw [TargetMap.sends_inverse, sends_targetMap, mem_inverse]

theorem pairs_targetMap (s : Substitution) : s.targetMap.pairs = s.pairs.toList := by
  apply SortedSet.eq_of_mem_iff s.targetMap.pairwise_pairs s.pairs.ascending
  rintro ⟨v, w⟩
  rw [TargetMap.mem_pairs, sends_targetMap, SortedSet.mem_toList]

theorem pairwise_targets (s : Substitution) (v : Variable) :
    (s.targets v).Pairwise fun a b => compare a b = .lt := by
  rw [targets, List.pairwise_map]
  refine (s.pairs.ascending.filter _).imp_of_mem fun {p q} hp hq hlt => ?_
  simp only [List.mem_filter, decide_eq_true_eq] at hp hq
  rwa [← TargetMap.compare_of_fst_eq (hp.2.trans hq.2.symm)]

/-- The map has the targets of each variable that is sent, and nothing for others. -/
theorem get?_targetMap (s : Substitution) (v : Variable) :
    (s.targetMap.get? v).map (·.toList) =
      if s.targets v = [] then none else some (s.targets v) := by
  cases hv : s.targetMap.get? v with
  | none =>
    have hnone : s.targets v = [] := by
      rw [List.eq_nil_iff_forall_not_mem]
      intro w hw
      obtain ⟨targets, htargets, -⟩ := sends_targetMap.2 (mem_targets.1 hw)
      rw [hv] at htargets
      cases htargets
    rw [if_pos hnone]
    rfl
  | some targets =>
    have heq : targets.toList = s.targets v := by
      apply SortedSet.eq_of_mem_iff targets.ascending (s.pairwise_targets v)
      intro w
      rw [mem_targets, ← sends_targetMap, TargetMap.Sends, hv]
      simp
    obtain ⟨w, hw⟩ := s.tight_targetMap v targets hv
    have hne : s.targets v ≠ [] := by
      rw [← heq]
      exact List.ne_nil_of_mem hw
    rw [if_neg hne, Option.map_some, heq]

end Substitution

end GraphQuery
