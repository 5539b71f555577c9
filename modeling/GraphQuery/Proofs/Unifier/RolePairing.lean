import GraphQuery.Proofs.Atom.Correspondence
import GraphQuery.Proofs.Collection.Pairing
import GraphQuery.Unifier.RolePairing
import Mathlib.Data.List.Perm.Basic

/-!
# Pairings of players

A pairing of players belongs to a matching, which puts to each player of the parent another of the
child's that it may be matched with. One for a rule may leave players of the child out. An exact one
leaves none out, so a renaming of variables carries the one list of players to the other, up to order,
exactly when it respects some exact pairing.
-/

namespace GraphQuery

theorem labelsCompatible_self (l : Option Label) : labelsCompatible l l = true := by
  cases l <;> simp [labelsCompatible]

namespace RolePlayer

variable {f : Variable → Variable} {strictness : Strictness}
  {children parents : List RolePlayer}

/-- Different players of the child put to the parent's, each to one that it can be matched with. -/
structure Matching (strictness : Strictness) (children parents : List RolePlayer) where
  /-- The players of the child, in the order of those of the parent. -/
  matched : List RolePlayer
  subperm : matched.Subperm children
  matchable : List.Forall₂ (fun child parent => child.matchable strictness parent = true)
    matched parents

/-- The variables of the players that are put to each other. -/
def Matching.pairs (m : Matching strictness children parents) : List (Variable × Variable) :=
  (m.matched.zip parents).map fun x => (x.1.player, x.2.player)

variable {pairs : List (Variable × Variable)}

theorem mem_assignments_cons {parent : RolePlayer} :
    pairs ∈ assignments strictness children (parent :: parents) ↔
      ∃ child rest, (child, rest) ∈ picks children ∧ child.matchable strictness parent = true ∧
        ∃ tail ∈ assignments strictness rest parents,
          pairs = (child.player, parent.player) :: tail := by
  rw [assignments, List.mem_flatMap]
  constructor
  · rintro ⟨⟨child, rest⟩, hpick, hpairs⟩
    by_cases hmatch : child.matchable strictness parent = true
    · rw [if_pos hmatch, List.mem_map] at hpairs
      obtain ⟨tail, htail, rfl⟩ := hpairs
      exact ⟨child, rest, hpick, hmatch, tail, htail, rfl⟩
    · rw [if_neg hmatch] at hpairs
      cases hpairs
  · rintro ⟨child, rest, hpick, hmatch, tail, htail, rfl⟩
    refine ⟨(child, rest), hpick, ?_⟩
    rw [if_pos hmatch, List.mem_map]
    exact ⟨tail, htail, rfl⟩

/-- The search finds the pairs of every matching and no others. -/
theorem mem_assignments_iff : pairs ∈ assignments strictness children parents ↔
    ∃ m : Matching strictness children parents, m.pairs = pairs := by
  induction parents generalizing children pairs with
  | nil =>
    rw [assignments, List.mem_singleton]
    constructor
    · rintro rfl
      exact ⟨⟨[], List.nil_subperm, .nil⟩, rfl⟩
    · rintro ⟨m, rfl⟩
      rw [Matching.pairs, List.zip_nil_right, List.map_nil]
  | cons parent parents ih =>
    rw [mem_assignments_cons]
    constructor
    · rintro ⟨child, rest, hpick, hmatch, tail, htail, rfl⟩
      obtain ⟨m, rfl⟩ := ih.1 htail
      have hsubperm := (List.subperm_cons child).2 m.subperm
      exact ⟨⟨child :: m.matched, hsubperm.trans (perm_of_mem_picks hpick).subperm,
        .cons hmatch m.matchable⟩, rfl⟩
    · rintro ⟨⟨matched, hsubperm, hmatchable⟩, rfl⟩
      cases hmatchable with
      | @cons child _ matched _ hmatch hrest =>
        obtain ⟨front, back, rfl⟩ :=
          List.append_of_mem (hsubperm.subset List.mem_cons_self)
        have hsubperm' : matched.Subperm (front ++ back) := by
          rw [← List.subperm_cons child]
          exact hsubperm.trans List.perm_middle.subperm
        exact ⟨child, front ++ back, mem_picks front back child, hmatch, _,
          ih.2 ⟨⟨matched, hsubperm', hrest⟩, rfl⟩, rfl⟩

theorem Matching.length_le (m : Matching strictness children parents) :
    parents.length ≤ children.length := by
  rw [← m.matchable.length_eq]
  exact m.subperm.length_le

theorem mem_pairings_exact_iff : pairs ∈ pairings .exact children parents ↔
    ∃ m : Matching .exact children parents, m.matched.Perm children ∧ m.pairs = pairs := by
  rw [pairings, List.mem_ite_nil_right, sizesFit, decide_eq_true_iff, mem_assignments_iff]
  constructor
  · rintro ⟨hlength, m, rfl⟩
    have hlength' : m.matched.length = children.length := m.matchable.length_eq.trans hlength
    exact ⟨m, m.subperm.perm_of_length_le (Nat.le_of_eq hlength'.symm), rfl⟩
  · rintro ⟨m, hperm, rfl⟩
    exact ⟨by rw [← m.matchable.length_eq, hperm.length_eq], m, rfl⟩

theorem mem_pairings_rule_iff : pairs ∈ pairings .rule children parents ↔
    ∃ m : Matching .rule children parents, m.pairs = pairs := by
  rw [pairings, List.mem_ite_nil_right, sizesFit, decide_eq_true_iff, mem_assignments_iff]
  refine and_iff_right_of_imp ?_
  rintro ⟨m, -⟩
  exact m.length_le

theorem pairings_nil (strictness : Strictness) : pairings strictness [] [] = [[]] := by
  cases strictness <;> rfl

theorem rename_eq {child parent : RolePlayer}
    (hrole : child.matchable .exact parent = true) (hplayer : f child.player = parent.player) :
    child.rename f = parent := by
  have hsame : child.role = parent.role := of_decide_eq_true hrole
  rw [rename, hsame, hplayer]

theorem matchable_rename (child : RolePlayer) : child.matchable .exact (child.rename f) = true :=
  decide_eq_true rfl

/-- A renaming carries the one list of players to the other just when it respects some exact
pairing. -/
theorem renameTo_iff_exists_pairing {as bs : List RolePlayer} :
    RenameTo f as bs ↔ ∃ pairs ∈ pairings .exact as bs, ∀ pair ∈ pairs, f pair.1 = pair.2 := by
  constructor
  · intro h
    have hback : bs.Perm (as.map (rename f)) := List.Perm.symm h
    obtain ⟨zs, hperm, hzs⟩ := PairedUp.map_right_iff.1 (PairedUp.eq_iff.2 hback)
    rw [← List.forall₂_map_right_iff, List.forall₂_eq_eq_eq] at hzs
    subst hzs
    have hmatchable : List.Forall₂ (fun child parent => child.matchable .exact parent = true) zs
        (zs.map (rename f)) := by
      rw [List.forall₂_map_right_iff, List.forall₂_same]
      exact fun child _ => matchable_rename child
    refine ⟨_, mem_pairings_exact_iff.2 ⟨⟨zs, hperm.subperm, hmatchable⟩, hperm, rfl⟩, ?_⟩
    intro pair hpair
    obtain ⟨x, hx, rfl⟩ := List.mem_map.1 hpair
    exact congrArg RolePlayer.player (eq_of_mem_zip_map hx)
  · rintro ⟨pairs, hpairs, hf⟩
    obtain ⟨m, hperm, rfl⟩ := mem_pairings_exact_iff.1 hpairs
    have hrename : m.matched.map (rename f) = bs := by
      rw [← List.forall₂_eq_eq_eq, List.forall₂_map_left_iff, List.forall₂_iff_zip]
      refine ⟨m.matchable.length_eq, ?_⟩
      intro child parent hzip
      exact rename_eq ((List.forall₂_iff_zip.1 m.matchable).2 hzip)
        (hf _ (List.mem_map_of_mem hzip))
    rw [RenameTo, ← hrename]
    exact hperm.symm.map _

/-- An exact pairing pairs every player of the child, as often as it plays. -/
theorem map_fst_perm_of_mem_pairings (hpairs : pairs ∈ pairings .exact children parents) :
    (pairs.map Prod.fst).Perm (children.map (·.player)) := by
  obtain ⟨m, hperm, rfl⟩ := mem_pairings_exact_iff.1 hpairs
  have hfst : m.pairs.map Prod.fst = ((m.matched.zip parents).map Prod.fst).map (·.player) := by
    rw [Matching.pairs, List.map_map, List.map_map]
    rfl
  rw [hfst, List.map_fst_zip (Nat.le_of_eq m.matchable.length_eq)]
  exact hperm.map _

theorem matchable_rule_of_exact {child parent : RolePlayer}
    (h : child.matchable .exact parent = true) : child.matchable .rule parent = true := by
  have hrole : child.role = parent.role := of_decide_eq_true h
  rw [matchable, hrole]
  exact labelsCompatible_self parent.role

theorem mem_pairings_rule_of_exact (h : pairs ∈ pairings .exact children parents) :
    pairs ∈ pairings .rule children parents := by
  obtain ⟨m, -, rfl⟩ := mem_pairings_exact_iff.1 h
  exact mem_pairings_rule_iff.2
    ⟨⟨m.matched, m.subperm, m.matchable.imp fun _ _ => matchable_rule_of_exact⟩, rfl⟩

end RolePlayer

end GraphQuery
