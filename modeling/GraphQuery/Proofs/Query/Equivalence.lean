import GraphQuery.Digest.Atom
import GraphQuery.Proofs.Atom.Key
import GraphQuery.Proofs.Collection.Pairing
import GraphQuery.Proofs.Digest.Shape
import GraphQuery.Proofs.Query.Renaming
import GraphQuery.Proofs.Unifier.RolePairing

/-!
# Queries up to renaming

The search for a pairing of atoms succeeds just when one injective map of variables carries the one
query to the other. So equivalence of queries is an equivalence relation, and equivalent queries have
equal hashes.
-/

namespace GraphQuery

variable {equivalence : Equivalence} {f g : Variable → Variable}

namespace Atom

theorem correspondences_eq {a b : Atom} (h : a.equivalent equivalence b = true) :
    a.correspondences equivalence b =
      (RolePlayer.pairings .exact a.kind.players b.kind.players).map (a.slots.zip b.slots ++ ·) := by
  have hkinds := equivalent_iff.1 h
  rw [correspondences, if_pos h]
  generalize a.slots = slots at hkinds ⊢
  generalize b.slots = slots' at hkinds ⊢
  generalize a.kind = k at hkinds ⊢
  generalize b.kind = l at hkinds ⊢
  cases hkinds with
  | relation => rfl
  | _ => exact congrArg ([·]) (List.append_nil _).symm

/-- An injective map carries one atom to another just when it respects some correspondence. -/
theorem renamesTo_iff_exists_correspondence {a b : Atom} (hf : Function.Injective f) :
    a.RenamesTo equivalence f b ↔
      ∃ pairs ∈ a.correspondences equivalence b, ∀ pair ∈ pairs, f pair.1 = pair.2 := by
  constructor
  · intro h
    rw [correspondences_eq (h.equivalent hf), h.slots_eq_map hf]
    obtain ⟨players, hplayers, hpair⟩ :=
      RolePlayer.renameTo_iff_exists_pairing.1 h.renameTo_players
    refine ⟨_, List.mem_map.2 ⟨players, hplayers, rfl⟩, ?_⟩
    intro pair hmem
    rcases List.mem_append.1 hmem with hmem | hmem
    · exact eq_of_mem_zip_map hmem
    · exact hpair pair hmem
  · rintro ⟨pairs, hpairs, hpair⟩
    by_cases h : a.equivalent equivalence b = true
    · rw [correspondences_eq h, List.mem_map] at hpairs
      obtain ⟨players, hplayers, rfl⟩ := hpairs
      apply renamesTo_of_equivalent h
      · intro pair hmem
        exact hpair pair (List.mem_append_left _ hmem)
      · apply RolePlayer.renameTo_iff_exists_pairing.2
        refine ⟨players, hplayers, ?_⟩
        intro pair hmem
        exact hpair pair (List.mem_append_right _ hmem)
    · rw [correspondences, if_neg h] at hpairs
      cases hpairs

/-- The atoms of two lists can be paired so that a map carries each to its counterpart. -/
def PairedBy (equivalence : Equivalence) (f : Variable → Variable) (as bs : List Atom) : Prop :=
  ∃ cs : List Atom, cs.Perm bs ∧ List.Forall₂ (RenamesTo equivalence f) as cs

theorem pairedBy_iff {as bs : List Atom} :
    PairedBy equivalence f as bs ↔ PairedUp (RenamesTo equivalence f) as bs := Iff.rfl

theorem PairedBy.refl (as : List Atom) : PairedBy equivalence id as as :=
  ⟨as, .refl as, List.forall₂_same.2 fun a _ => .refl a⟩

theorem PairedBy.congr {as bs : List Atom} (h : PairedBy equivalence f as bs)
    (hfg : ∀ a ∈ as, ∀ v ∈ a.renamed, f v = g v) : PairedBy equivalence g as bs :=
  (pairedBy_iff.1 h).mono fun a ha _ _ hab => hab.congr (hfg a ha)

theorem PairedBy.of_alpha {as bs : List Atom} (h : PairedBy .alpha f as bs)
    (hf : Function.Injective f) : PairedBy equivalence f as bs :=
  (pairedBy_iff.1 h).mono fun _ _ _ _ hab => hab.of_alpha hf

theorem PairedBy.symm {as bs : List Atom} (h : PairedBy equivalence f as bs)
    (hfg : Function.LeftInverse g f) : PairedBy equivalence g bs as :=
  (pairedBy_iff.1 h).symm fun _ _ hab => hab.symm hfg

theorem PairedBy.trans {as bs cs : List Atom} (h : PairedBy equivalence f as bs)
    (k : PairedBy equivalence g bs cs) : PairedBy equivalence (g ∘ f) as cs :=
  (pairedBy_iff.1 h).trans k fun _ _ _ hab hbc => hab.trans hbc

end Atom

namespace Query

theorem pairable_cons {a : Atom} {as targets : List Atom} {r : Renaming} :
    pairable equivalence (a :: as) targets r = true ↔
      ∃ b rest, (b, rest) ∈ picks targets ∧ ∃ pairs ∈ a.correspondences equivalence b,
        ∃ r', r.addAll? pairs = some r' ∧ pairable equivalence as rest r' = true := by
  rw [pairable, List.any_eq_true]
  constructor
  · rintro ⟨⟨b, rest⟩, hpick, hsome⟩
    obtain ⟨pairs, hpairs, hmatch⟩ := List.any_eq_true.1 hsome
    split at hmatch
    next r' hadd => exact ⟨b, rest, hpick, pairs, hpairs, r', hadd, hmatch⟩
    next => cases hmatch
  · rintro ⟨b, rest, hpick, pairs, hpairs, r', hadd, h⟩
    refine ⟨(b, rest), hpick, ?_⟩
    apply List.any_eq_true.2
    refine ⟨pairs, hpairs, ?_⟩
    rw [hadd]
    exact h

theorem exists_perm_of_pairable {as bs : List Atom} {r : Renaming} (hr : r.OneToOne)
    (hlength : as.length = bs.length) (h : pairable equivalence as bs r = true) :
    ∃ σ : Equiv.Perm Variable, r.Within σ ∧ Atom.PairedBy equivalence σ as bs := by
  induction as generalizing bs r with
  | nil =>
    obtain ⟨σ, hσ⟩ := hr.exists_perm
    refine ⟨σ, hσ, [], ?_, .nil⟩
    rw [List.eq_nil_of_length_eq_zero hlength.symm]
  | cons a as ih =>
    obtain ⟨b, rest, hpick, pairs, hpairs, r', hadd, h⟩ := pairable_cons.1 h
    have hlength' : as.length = rest.length := by
      have := length_of_mem_picks hpick
      rw [List.length_cons] at hlength
      omega
    obtain ⟨σ, hσ, cs, hperm, hcs⟩ := ih (hr.addAll? hadd) hlength' h
    refine ⟨σ, ?_, b :: cs, ?_, ?_⟩
    · intro pair hpair
      exact hσ pair ((Renaming.mem_of_addAll? hadd).2 (.inr hpair))
    · exact (hperm.cons b).trans (perm_of_mem_picks hpick)
    · apply List.Forall₂.cons _ hcs
      apply (Atom.renamesTo_iff_exists_correspondence σ.injective).2
      refine ⟨pairs, hpairs, ?_⟩
      intro pair hpair
      exact hσ pair ((Renaming.mem_of_addAll? hadd).2 (.inl hpair))

theorem pairable_of_pairedBy {as bs : List Atom} {r : Renaming} (hf : Function.Injective f)
    (hr : r.Within f) (h : Atom.PairedBy equivalence f as bs) :
    pairable equivalence as bs r = true := by
  induction as generalizing bs r with
  | nil => rfl
  | cons a as ih =>
    obtain ⟨cs, hperm, hcs⟩ := h
    cases hcs with
    | @cons _ c _ cs hac hcs =>
      obtain ⟨front, back, rfl⟩ := List.append_of_mem (hperm.mem_iff.1 List.mem_cons_self)
      obtain ⟨pairs, hpairs, hpair⟩ := (Atom.renamesTo_iff_exists_correspondence hf).1 hac
      obtain ⟨r', hadd, hr'⟩ := hr.exists_addAll? hf hpair
      have hrest : cs.Perm (front ++ back) := (hperm.trans List.perm_middle).cons_inv
      apply pairable_cons.2
      exact ⟨c, front ++ back, mem_picks front back c, pairs, hpairs, r', hadd,
        ih hr' ⟨cs, hrest, hcs⟩⟩

/-- The query becomes another one, up to the order of atoms, when its variables are renamed. -/
def RenamesTo (equivalence : Equivalence) (f : Variable → Variable) (q r : Query) : Prop :=
  Atom.PairedBy equivalence f q.atoms r.atoms

theorem RenamesTo.equivalent {q r : Query} (h : q.RenamesTo equivalence f r)
    (hf : Function.Injective f) : q.equivalent equivalence r = true := by
  rw [Query.equivalent, Bool.and_eq_true_iff]
  constructor
  · obtain ⟨bs, hperm, hpairs⟩ := h
    apply decide_eq_true
    rw [hpairs.length_eq, hperm.length_eq]
  · exact pairable_of_pairedBy hf (Renaming.within_empty f) h

theorem exists_perm_of_equivalent {q r : Query} (h : q.equivalent equivalence r = true) :
    ∃ σ : Equiv.Perm Variable, q.RenamesTo equivalence σ r := by
  rw [Query.equivalent, Bool.and_eq_true_iff] at h
  obtain ⟨σ, -, hσ⟩ :=
    exists_perm_of_pairable Renaming.oneToOne_empty (of_decide_eq_true h.1) h.2
  exact ⟨σ, hσ⟩

theorem RenamesTo.keys_perm {q r : Query} (h : q.RenamesTo equivalence f r)
    (hf : Function.Injective f) :
    (q.atoms.map equivalence.key).Perm (r.atoms.map equivalence.key) := by
  obtain ⟨bs, hperm, hpairs⟩ := h
  have hkeys : q.atoms.map equivalence.key = bs.map equivalence.key := by
    rw [← List.forall₂_eq_eq_eq, List.forall₂_map_left_iff, List.forall₂_map_right_iff]
    exact hpairs.imp fun a b hab => of_decide_eq_true (hab.equivalent hf)
  rw [hkeys]
  exact hperm.map _

theorem copy_renamesTo (q : Query) (number : QueryId) :
    (q.copy number).RenamesTo equivalence (fun v => v) q := by
  refine ⟨q.atoms, .refl _, ?_⟩
  change List.Forall₂ _ (q.atoms.map (·.copy number)) q.atoms
  rw [List.forall₂_map_left_iff, List.forall₂_same]
  intro a _
  exact .refl a

/-- The variables whose names a renaming of the query changes. -/
def renamed (q : Query) : List Variable := q.atoms.flatMap (·.renamed)

/-- A map that is one-to-one on what it renames does the same as some permutation. -/
theorem RenamesTo.exists_perm {q r : Query} (h : q.RenamesTo equivalence f r)
    (hf : ∀ v ∈ q.renamed, ∀ w ∈ q.renamed, f v = f w → v = w) :
    ∃ σ : Equiv.Perm Variable, q.RenamesTo equivalence σ r := by
  obtain ⟨σ, hσ⟩ := Renaming.exists_perm_of_injOn hf
  refine ⟨σ, h.congr ?_⟩
  intro a ha v hv
  exact (hσ v (List.mem_flatMap.2 ⟨a, ha, hv⟩)).symm

/-- Equivalence of queries is being the same query but for one renaming of variables. -/
structure EquivalentUpToRenaming (equivalence : Equivalence) : Prop where
  /-- The search finds a renaming just when there is one. -/
  decides : ∀ q r : Query, q.equivalent equivalence r = true ↔
    ∃ f : Variable → Variable, Function.Injective f ∧ q.RenamesTo equivalence f r
  /-- The renaming has to be one-to-one only on the variables that the query names. -/
  decides_renamed : ∀ q r : Query, q.equivalent equivalence r = true ↔
    ∃ f : Variable → Variable, (∀ v ∈ q.renamed, ∀ w ∈ q.renamed, f v = f w → v = w) ∧
      q.RenamesTo equivalence f r
  refl : ∀ q : Query, q.equivalent equivalence q = true
  symm : ∀ q r : Query, q.equivalent equivalence r = true → r.equivalent equivalence q = true
  trans : ∀ q r s : Query, q.equivalent equivalence r = true → r.equivalent equivalence s = true →
    q.equivalent equivalence s = true
  of_alpha : ∀ q r : Query, q.equivalent .alpha r = true → q.equivalent equivalence r = true
  copy : ∀ (q : Query) (number : QueryId), (q.copy number).equivalent equivalence q = true
  /-- Equivalent queries have equal hashes, whatever hash the keys of atoms have. -/
  hash : ∀ q r : Query, q.equivalent equivalence r = true → ∀ hash : AtomKey → UInt64,
    q.equivalenceHash hash equivalence = r.equivalenceHash hash equivalence
  feed : ∀ q r : Query, q.equivalent equivalence r = true → ∀ digest : Digest,
    q.equivalenceFeed equivalence digest = r.equivalenceFeed equivalence digest

theorem equivalenceHash_eq_of_perm {q r : Query} (hash : AtomKey → UInt64)
    (h : (q.atoms.map equivalence.key).Perm (r.atoms.map equivalence.key)) :
    q.equivalenceHash hash equivalence = r.equivalenceHash hash equivalence := by
  have hhashes := h.map hash
  rw [List.map_map, List.map_map] at hhashes
  rw [equivalenceHash, equivalenceHash]
  congr 1
  exact mergeSort_le_eq_of_perm hhashes

theorem equivalenceFeed_eq_of_perm {q r : Query} (digest : Digest)
    (h : (q.atoms.map equivalence.key).Perm (r.atoms.map equivalence.key)) :
    q.equivalenceFeed equivalence digest = r.equivalenceFeed equivalence digest := by
  have hdigests := h.map (Feed.digested digest)
  rw [List.map_map, List.map_map] at hdigests
  exact Feed.multiset_eq_of_perm hdigests

theorem equivalent_upToRenaming (equivalence : Equivalence) :
    EquivalentUpToRenaming equivalence where
  decides q r := by
    constructor
    · intro h
      obtain ⟨σ, hσ⟩ := exists_perm_of_equivalent h
      exact ⟨σ, σ.injective, hσ⟩
    · rintro ⟨f, hf, h⟩
      exact h.equivalent hf
  decides_renamed q r := by
    constructor
    · intro h
      obtain ⟨σ, hσ⟩ := exists_perm_of_equivalent h
      exact ⟨σ, fun v _ w _ hvw => σ.injective hvw, hσ⟩
    · rintro ⟨f, hf, h⟩
      obtain ⟨σ, hσ⟩ := h.exists_perm hf
      exact hσ.equivalent σ.injective
  refl q := by
    have h : q.RenamesTo equivalence (fun v => v) q := Atom.PairedBy.refl q.atoms
    exact h.equivalent Function.injective_id
  symm q r h := by
    obtain ⟨σ, hσ⟩ := exists_perm_of_equivalent h
    have hback : r.RenamesTo equivalence σ.symm q := Atom.PairedBy.symm hσ σ.symm_apply_apply
    exact hback.equivalent σ.symm.injective
  trans q r s h k := by
    obtain ⟨σ, hσ⟩ := exists_perm_of_equivalent h
    obtain ⟨τ, hτ⟩ := exists_perm_of_equivalent k
    have hboth : q.RenamesTo equivalence (τ ∘ σ) s := Atom.PairedBy.trans hσ hτ
    exact hboth.equivalent (τ.injective.comp σ.injective)
  of_alpha q r h := by
    obtain ⟨σ, hσ⟩ := exists_perm_of_equivalent h
    have hweak : q.RenamesTo equivalence σ r := Atom.PairedBy.of_alpha hσ σ.injective
    exact hweak.equivalent σ.injective
  copy q number := (copy_renamesTo q number).equivalent Function.injective_id
  hash q r h hash := by
    obtain ⟨σ, hσ⟩ := exists_perm_of_equivalent h
    exact equivalenceHash_eq_of_perm hash (hσ.keys_perm σ.injective)
  feed q r h digest := by
    obtain ⟨σ, hσ⟩ := exists_perm_of_equivalent h
    exact equivalenceFeed_eq_of_perm digest (hσ.keys_perm σ.injective)

end Query

end GraphQuery
