import GraphQuery.Proofs.Unifier.TargetMap

/-!
# The algebra of unifiers

Merging is the union of sets of pairs, so that unifiers are a semilattice: the substitutions are
ordered by the pairs that they have, and the non-existent unifier absorbs all others. Turning every
pair around respects unions, loses no pair and undoes itself. The same operations on maps of target
sets never leave a variable with an empty set, so that they build the map of the unifier that they
build as a set of pairs, and the laws are those of the maps as well.
-/

namespace GraphQuery

namespace Substitution

variable {s t r : Substitution}

theorem merge_assoc (s t r : Substitution) : (s.merge t).merge r = s.merge (t.merge r) := by
  ext pair
  simp only [mem_merge, or_assoc]

theorem merge_comm (s t : Substitution) : s.merge t = t.merge s := by
  ext pair
  simp only [mem_merge, or_comm]

theorem merge_self (s : Substitution) : s.merge s = s := by
  ext pair
  simp only [mem_merge, or_self]

theorem merge_identity (s : Substitution) : s.merge identity = s := by
  ext pair
  simp only [mem_merge, not_mem_identity, or_false]

theorem inverse_injective : Function.Injective inverse :=
  Function.LeftInverse.injective inverse_inverse

theorem inverse_merge (s t : Substitution) :
    (s.merge t).inverse = s.inverse.merge t.inverse := by
  ext ⟨v, w⟩
  simp only [mem_inverse, mem_merge]

theorem size_inverse (s : Substitution) : s.inverse.size = s.size := by
  have hnodup : (s.pairs.toList.map Prod.swap).Nodup :=
    s.pairs.nodup_toList.map Prod.swap_injective
  exact (SortedSet.toList_ofList_perm hnodup).length_eq.trans (List.length_map _)

theorem containsAll_merge : r.containsAll (s.merge t) = true ↔
    r.containsAll s = true ∧ r.containsAll t = true := by
  simp only [containsAll_iff, mem_merge, or_imp, forall_and]

theorem isBijective_inverse (s : Substitution) : s.inverse.isBijective = s.isBijective := by
  rw [Bool.eq_iff_iff, isBijective_iff, isBijective_iff]
  constructor
  · intro h
    exact s.inverse_inverse ▸ h.inverse
  · exact OneToOne.inverse

end Substitution

namespace Unifier

/-- The ways to build a unifier. -/
inductive Construction where
  | ofPairs (pairs : List (Variable × Variable))
  | trivial
  | nonExistent
  | merge (a b : Construction)
  | inverse (a : Construction)

namespace Construction

/-- What is built as a set of pairs. -/
def unifier : Construction → Unifier
  | ofPairs pairs => .ofPairs pairs
  | trivial => .trivial
  | nonExistent => .nonExistent
  | merge a b => a.unifier.merge b.unifier
  | inverse a => a.unifier.inverse

/-- What is built as a map of target sets, nothing where there is no unifier. -/
def targetMap? : Construction → Option TargetMap
  | ofPairs pairs => some (.ofPairs pairs)
  | trivial => some .empty
  | nonExistent => none
  | merge a b => do return (← a.targetMap?).merge (← b.targetMap?)
  | inverse a => a.targetMap?.map .inverse

/-- Each operation on the maps is that on the sets of pairs. -/
theorem targetMap?_eq (c : Construction) :
    c.targetMap? = c.unifier.substitution?.map (·.targetMap) := by
  induction c with
  | ofPairs pairs => exact congrArg some (Substitution.targetMap_ofPairs pairs)
  | trivial => rfl
  | nonExistent => rfl
  | merge a b iha ihb =>
    rw [targetMap?, unifier, iha, ihb]
    cases a.unifier with
    | nonExistent => rfl
    | mapping s =>
      cases b.unifier with
      | nonExistent => rfl
      | mapping t => exact congrArg some (s.targetMap_merge t)
  | inverse a ih =>
    rw [targetMap?, unifier, ih]
    cases a.unifier with
    | nonExistent => rfl
    | mapping s => exact congrArg some s.targetMap_inverse

theorem tight_targetMap? (c : Construction) {m : TargetMap} (h : c.targetMap? = some m) :
    m.Tight := by
  rw [targetMap?_eq, Option.map_eq_some_iff] at h
  obtain ⟨s, -, rfl⟩ := h
  exact s.tight_targetMap

/-- Every unifier can be built. -/
theorem exists_unifier_eq (u : Unifier) : ∃ c : Construction, c.unifier = u := by
  cases u with
  | nonExistent => exact ⟨nonExistent, rfl⟩
  | mapping s =>
    refine ⟨ofPairs s.pairs.toList, congrArg mapping (Substitution.ext fun pair => ?_)⟩
    rw [Substitution.mem_ofPairs, SortedSet.mem_toList]

end Construction

/-- Whatever is built as a map of target sets has no empty one, and is read as the unifier that is
built in the same way as a set of pairs. -/
structure HeldAsTargetMaps : Prop where
  tight : ∀ (c : Construction) (m : TargetMap), c.targetMap? = some m → m.Tight
  targetMap?_eq : ∀ c : Construction, c.targetMap? = c.unifier.substitution?.map (·.targetMap)
  exists_construction : ∀ u : Unifier, ∃ c : Construction, c.unifier = u
  pairs_eq : ∀ s : Substitution, s.targetMap.pairs = (mapping s).pairs
  get?_eq : ∀ (s : Substitution) (v : Variable),
    (s.targetMap.get? v).map (·.toList) = (mapping s).targets? v
  targetMap_injective : Function.Injective Substitution.targetMap

theorem heldAsTargetMaps : HeldAsTargetMaps where
  tight c _ h := c.tight_targetMap? h
  targetMap?_eq := Construction.targetMap?_eq
  exists_construction := Construction.exists_unifier_eq
  pairs_eq := Substitution.pairs_targetMap
  get?_eq s v := (s.get?_targetMap v).trans (targets?_mapping s v).symm
  targetMap_injective _ _ := Substitution.targetMap_injective

/-- Unifiers are a semilattice with an involution. -/
structure SemilatticeWithInvolution : Prop where
  merge_assoc : ∀ a b c : Unifier, (a.merge b).merge c = a.merge (b.merge c)
  merge_comm : ∀ a b : Unifier, a.merge b = b.merge a
  merge_self : ∀ a : Unifier, a.merge a = a
  merge_trivial : ∀ a : Unifier, a.merge trivial = a ∧ trivial.merge a = a
  merge_nonExistent : ∀ a : Unifier, a.merge nonExistent = nonExistent ∧
    nonExistent.merge a = nonExistent
  inverse_inverse : ∀ a : Unifier, a.inverse.inverse = a
  size_inverse : ∀ a : Unifier, a.inverse.size = a.size
  inverse_merge : ∀ a b : Unifier, (a.merge b).inverse = a.inverse.merge b.inverse
  /-- The unifiers that exist are ordered by the pairs that they have. -/
  order : IsPartialOrder Substitution fun s t => (mapping t).containsAll (mapping s) = true
  /-- Their least upper bounds are what they merge to. -/
  containsAll_merge : ∀ s t r : Substitution,
    (mapping r).containsAll ((mapping s).merge (mapping t)) = true ↔
      (mapping r).containsAll (mapping s) = true ∧ (mapping r).containsAll (mapping t) = true
  isBijective_iff : ∀ s : Substitution, (mapping s).isBijective = true ↔
    (∀ v w x, (v, w) ∈ s.pairs → (v, x) ∈ s.pairs → w = x) ∧
      ∀ v x w, (v, w) ∈ s.pairs → (x, w) ∈ s.pairs → v = x
  isBijective_inverse : ∀ a : Unifier, a.inverse.isBijective = a.isBijective

theorem merge_nonExistent (a : Unifier) : a.merge nonExistent = nonExistent := by
  cases a <;> rfl

theorem merge_comm (a b : Unifier) : a.merge b = b.merge a := by
  cases a with
  | nonExistent => exact (merge_nonExistent b).symm
  | mapping s =>
    cases b with
    | nonExistent => rfl
    | mapping t => exact congrArg mapping (s.merge_comm t)

theorem merge_assoc (a b c : Unifier) : (a.merge b).merge c = a.merge (b.merge c) := by
  cases a with
  | nonExistent => rfl
  | mapping s =>
    cases b with
    | nonExistent => rfl
    | mapping t =>
      cases c with
      | nonExistent => rfl
      | mapping r => exact congrArg mapping (s.merge_assoc t r)

theorem merge_self (a : Unifier) : a.merge a = a := by
  cases a with
  | nonExistent => rfl
  | mapping s => exact congrArg mapping s.merge_self

theorem merge_trivial (a : Unifier) : a.merge trivial = a := by
  cases a with
  | nonExistent => rfl
  | mapping s => exact congrArg mapping s.merge_identity

theorem inverse_inverse (a : Unifier) : a.inverse.inverse = a := by
  cases a with
  | nonExistent => rfl
  | mapping s => exact congrArg mapping s.inverse_inverse

theorem inverse_merge (a b : Unifier) : (a.merge b).inverse = a.inverse.merge b.inverse := by
  cases a with
  | nonExistent => rfl
  | mapping s =>
    cases b with
    | nonExistent => rfl
    | mapping t => exact congrArg mapping (s.inverse_merge t)

theorem isPartialOrder_containsAll :
    IsPartialOrder Substitution fun s t => (mapping t).containsAll (mapping s) = true where
  refl _ := Substitution.containsAll_iff.2 fun _ h => h
  trans _ _ _ hst htr := Substitution.containsAll_iff.2 fun pair h =>
    Substitution.containsAll_iff.1 htr pair (Substitution.containsAll_iff.1 hst pair h)
  antisymm _ _ hst hts := Substitution.ext fun pair =>
    ⟨Substitution.containsAll_iff.1 hst pair, Substitution.containsAll_iff.1 hts pair⟩

theorem isBijective_mapping_iff (s : Substitution) : (mapping s).isBijective = true ↔
    (∀ v w x, (v, w) ∈ s.pairs → (v, x) ∈ s.pairs → w = x) ∧
      ∀ v x w, (v, w) ∈ s.pairs → (x, w) ∈ s.pairs → v = x := by
  refine Substitution.isBijective_iff.trans ⟨fun h => ⟨?_, ?_⟩, ?_⟩
  · intro v w x hw hx
    exact (h (v, w) hw (v, x) hx).1 rfl
  · intro v x w hv hx
    exact (h (v, w) hv (x, w) hx).2 rfl
  · rintro ⟨htarget, hsource⟩ ⟨v, w⟩ hvw ⟨x, y⟩ hxy
    constructor
    · rintro rfl
      exact htarget v w y hvw hxy
    · rintro rfl
      exact hsource v x w hvw hxy

theorem semilatticeWithInvolution : SemilatticeWithInvolution where
  merge_assoc := merge_assoc
  merge_comm := merge_comm
  merge_self := merge_self
  merge_trivial a := ⟨a.merge_trivial, (merge_comm trivial a).trans a.merge_trivial⟩
  merge_nonExistent a := ⟨a.merge_nonExistent, rfl⟩
  inverse_inverse := inverse_inverse
  size_inverse a := by
    cases a with
    | nonExistent => rfl
    | mapping s => exact s.size_inverse
  inverse_merge := inverse_merge
  order := isPartialOrder_containsAll
  containsAll_merge _ _ _ := Substitution.containsAll_merge
  isBijective_iff := isBijective_mapping_iff
  isBijective_inverse a := by
    cases a with
    | nonExistent => rfl
    | mapping s => exact s.isBijective_inverse

end Unifier

namespace MultiUnifier

/-- Inverting all members of a set is an involution that loses none. -/
structure InversionOfMembers : Prop where
  inverse_inverse : ∀ m : MultiUnifier, m.inverse.inverse = m
  size_inverse : ∀ m : MultiUnifier, m.inverse.size = m.size
  mem_inverse : ∀ (m : MultiUnifier) (u : Unifier),
    u ∈ m.inverse.toList ↔ ∃ a ∈ m.toList, a.inverse = u

theorem inversionOfMembers : InversionOfMembers where
  inverse_inverse m := by
    ext s
    simp only [mem_inverse]
    constructor
    · rintro ⟨_, ⟨t, ht, rfl⟩, rfl⟩
      rwa [t.inverse_inverse]
    · intro hs
      exact ⟨s.inverse, ⟨s, hs, rfl⟩, s.inverse_inverse⟩
  size_inverse m := by
    have hnodup : (m.members.toList.map (·.inverse)).Nodup :=
      m.members.nodup_toList.map Substitution.inverse_injective
    have hsorted := List.mergeSort_perm (m.members.toList.map (·.inverse)) fun s t =>
      (compare s t).isLE
    have hset := SortedSet.toList_ofList_perm (hsorted.nodup_iff.2 hnodup)
    exact (hset.trans hsorted).length_eq.trans (List.length_map _)
  mem_inverse m u := by
    simp only [mem_toList, mem_inverse]
    constructor
    · rintro ⟨_, ⟨s, hs, rfl⟩, rfl⟩
      exact ⟨.mapping s, ⟨s, hs, rfl⟩, rfl⟩
    · rintro ⟨_, ⟨s, hs, rfl⟩, rfl⟩
      exact ⟨s.inverse, ⟨s, hs, rfl⟩, rfl⟩

end MultiUnifier

/-- Unifiers are a semilattice with an involution, whether they are held as sets of pairs or as maps
of target sets, and inverting the members of a set of them is an involution too. -/
theorem Unifier.algebra :
    HeldAsTargetMaps ∧ SemilatticeWithInvolution ∧ MultiUnifier.InversionOfMembers :=
  ⟨heldAsTargetMaps, semilatticeWithInvolution, MultiUnifier.inversionOfMembers⟩

end GraphQuery
