import GraphQuery.Proofs.Atom.Key
import GraphQuery.Proofs.Collection.Pairing
import GraphQuery.Proofs.Query.Renaming

/-!
# Signatures of players

A signature lists the roles of each player, but not which player has them. It tells the lists of
players that are renamings of each other from those that are not: players with the same roles can
change places, so the pairs that a renaming has to respect can be put into it one after the other, as
long as both sides of each pair have the same roles.
-/

namespace GraphQuery

section Keys

variable {κ : Type} {key key' : Variable → κ}

/-- A permutation under which keys agree can be made to respect pairs of variables with the same keys
without losing that they agree. -/
theorem exists_perm_respecting {pairs : List (Variable × Variable)}
    (hone : ∀ p ∈ pairs, ∀ q ∈ pairs, p.1 = q.1 ↔ p.2 = q.2)
    (hpairs : ∀ p ∈ pairs, key' p.2 = key p.1)
    (hagree : ∃ σ : Equiv.Perm Variable, ∀ v, key' (σ v) = key v) :
    ∃ σ : Equiv.Perm Variable, (∀ p ∈ pairs, σ p.1 = p.2) ∧ ∀ v, key' (σ v) = key v := by
  induction pairs with
  | nil =>
    obtain ⟨σ, hσ⟩ := hagree
    refine ⟨σ, ?_, hσ⟩
    intro p hp
    cases hp
  | cons pair pairs ih =>
    obtain ⟨σ, hrest, hσ⟩ := ih
      (fun p hp q hq => hone p (List.mem_cons_of_mem _ hp) q (List.mem_cons_of_mem _ hq))
      fun p hp => hpairs p (List.mem_cons_of_mem _ hp)
    have hpair := hpairs pair List.mem_cons_self
    -- What is swapped has the same key, so the swap moves no variable to one with another key.
    refine ⟨σ.trans (Equiv.swap (σ pair.1) pair.2), ?_, ?_⟩
    · intro p hp
      rw [Equiv.trans_apply]
      by_cases hsame : p.1 = pair.1
      · rw [hsame, (hone p hp pair List.mem_cons_self).1 hsame]
        exact Equiv.swap_apply_left _ _
      · have hne : p.2 ≠ pair.2 := fun h => hsame ((hone p hp pair List.mem_cons_self).2 h)
        have hp' : p ∈ pairs := by
          rcases List.mem_cons.1 hp with rfl | hp
          · exact absurd rfl hsame
          · exact hp
        rw [← hrest p hp'] at hne ⊢
        exact Equiv.swap_apply_of_ne_of_ne (σ.injective.ne hsame) hne
    · intro v
      rw [Equiv.trans_apply, Equiv.swap_apply_def]
      split
      case isTrue hv => rw [hpair, σ.injective hv]
      case isFalse =>
        split
        case isTrue hv => rw [hσ, ← hpair, ← hv, hσ]
        case isFalse => exact hσ v

/-- If the keys of two lists of variables are the same up to order, and all other variables have one
and the same key, then the keys agree under some permutation. -/
theorem exists_perm_of_map_perm {vs ws : List Variable} (hvs : vs.Nodup) (hws : ws.Nodup)
    (hkeys : (vs.map key).Perm (ws.map key')) {other : κ} (hv : ∀ v, v ∉ vs → key v = other)
    (hw : ∀ w, w ∉ ws → key' w = other) :
    ∃ σ : Equiv.Perm Variable, ∀ v, key' (σ v) = key v := by
  obtain ⟨ws', hperm, hpaired⟩ := PairedUp.map_iff.1 (PairedUp.eq_iff.2 hkeys)
  have hfst := List.map_fst_zip (Nat.le_of_eq hpaired.length_eq)
  have hsnd := List.map_snd_zip (Nat.le_of_eq hpaired.length_eq.symm)
  rw [← hfst] at hvs
  rw [← hperm.nodup_iff, ← hsnd] at hws
  have hone : (Renaming.mk (vs.zip ws')).OneToOne :=
    (List.pairwise_map.1 hvs).and (List.pairwise_map.1 hws)
  obtain ⟨σ, hσ⟩ := hone.exists_perm
  refine ⟨σ, ?_⟩
  intro v
  by_cases hmem : v ∈ vs
  · rw [← hfst, List.mem_map] at hmem
    obtain ⟨pair, hpair, rfl⟩ := hmem
    rw [hσ pair hpair]
    exact (List.forall₂_zip hpaired hpair).symm
  · have hfree : σ v ∉ ws := by
      intro hws
      rw [← hperm.mem_iff, ← hsnd, List.mem_map] at hws
      obtain ⟨pair, hpair, himage⟩ := hws
      rw [← hσ pair hpair] at himage
      exact hmem (σ.injective himage ▸ (List.of_mem_zip hpair).1)
    rw [hv v hmem, hw _ hfree]

end Keys

namespace RolePlayer

variable {as bs : List RolePlayer} {σ : Equiv.Perm Variable}

/-- The players together with their roles, as what can be counted. -/
theorem renameTo_iff_map_perm {f : Variable → Variable} :
    RenameTo f as bs ↔
      (as.map fun rp => (rp.role, f rp.player)).Perm (bs.map fun rp => (rp.role, rp.player)) := by
  let pair : RolePlayer → Option Label × Variable := fun rp => (rp.role, rp.player)
  have hinj : Function.Injective pair := by
    rintro ⟨role, v⟩ ⟨role', w⟩ h
    obtain ⟨rfl, rfl⟩ := Prod.mk.inj h
    rfl
  rw [RenameTo, ← List.map_perm_map_iff hinj, List.map_map]
  rfl

theorem count_rolesOf (players : List RolePlayer) (v : Variable) (role : Option Label) :
    (rolesOf players v).count role =
      (players.map fun rp => (rp.role, rp.player)).count (role, v) := by
  have hsame : (fun rp : RolePlayer => (rp.role, rp.player) == (role, v)) =
      fun rp => (rp.role == role) && decide (rp.player = v) := by
    funext rp
    rw [Bool.eq_iff_iff]
    simp
  rw [rolesOf, (List.mergeSort_perm _ _).count_eq, List.count_eq_countP, List.count_eq_countP,
    List.countP_map, List.countP_map, List.countP_filter]
  exact congrArg (List.countP · players) hsame.symm

theorem rolesOf_eq_nil_iff {players : List RolePlayer} {v : Variable} :
    rolesOf players v = [] ↔ v ∉ (players.map (·.player)).eraseDups := by
  rw [← List.length_eq_zero_iff, rolesOf, (List.mergeSort_perm _ _).length_eq,
    List.length_eq_zero_iff, List.map_eq_nil_iff, List.filter_eq_nil_iff, List.mem_eraseDups]
  simp

/-- A permutation of the variables carries the one list of players to the other just when each
variable has the roles of its image. -/
theorem renameTo_iff_rolesOf : RenameTo σ as bs ↔ ∀ v, rolesOf bs (σ v) = rolesOf as v := by
  constructor
  · intro h v
    rw [← rolesOf_eq_of_perm h, rolesOf_map_rename σ.injective]
  · intro h
    rw [renameTo_iff_map_perm, List.perm_iff_count]
    rintro ⟨role, w⟩
    obtain ⟨v, rfl⟩ := σ.surjective w
    have hmap : (as.map fun rp => (rp.role, σ rp.player)) =
        (as.map (rename σ)).map fun rp => (rp.role, rp.player) := by
      rw [List.map_map]
      rfl
    rw [hmap, ← count_rolesOf, ← count_rolesOf, rolesOf_map_rename σ.injective, h]

theorem exists_perm_of_signature_eq (h : signature as = signature bs) :
    ∃ σ : Equiv.Perm Variable, ∀ v, rolesOf bs (σ v) = rolesOf as v := by
  have hperm : ((as.map (·.player)).eraseDups.map (rolesOf as)).Perm
      ((bs.map (·.player)).eraseDups.map (rolesOf bs)) := by
    refine (List.mergeSort_perm _ _).symm.trans (.trans (.of_eq h) ?_)
    exact List.mergeSort_perm _ _
  exact exists_perm_of_map_perm (nodup_eraseDups _) (nodup_eraseDups _) hperm
    (fun v => rolesOf_eq_nil_iff.2) fun w => rolesOf_eq_nil_iff.2

/-- Lists of players have the same signature just when they are renamings of each other. -/
theorem signature_eq_iff :
    signature as = signature bs ↔ ∃ σ : Equiv.Perm Variable, RenameTo σ as bs := by
  constructor
  · intro h
    obtain ⟨σ, hσ⟩ := exists_perm_of_signature_eq h
    exact ⟨σ, renameTo_iff_rolesOf.2 hσ⟩
  · rintro ⟨σ, hσ⟩
    exact hσ.signature_eq σ.injective

/-- A renaming of players can be made to respect given pairs of variables just when each pair has the
same roles on both sides. -/
theorem exists_renameTo_iff (hsignature : signature as = signature bs)
    {pairs : List (Variable × Variable)}
    (hone : ∀ p ∈ pairs, ∀ q ∈ pairs, p.1 = q.1 ↔ p.2 = q.2) :
    (∃ σ : Equiv.Perm Variable, (∀ p ∈ pairs, σ p.1 = p.2) ∧ RenameTo σ as bs) ↔
      ∀ p ∈ pairs, rolesOf as p.1 = rolesOf bs p.2 := by
  constructor
  · rintro ⟨σ, hpairs, hσ⟩ p hp
    rw [← hpairs p hp, renameTo_iff_rolesOf.1 hσ]
  · intro hroles
    obtain ⟨σ, hpairs, hσ⟩ := exists_perm_respecting hone (fun p hp => (hroles p hp).symm)
      (exists_perm_of_signature_eq hsignature)
    exact ⟨σ, hpairs, renameTo_iff_rolesOf.2 hσ⟩

end RolePlayer

end GraphQuery
