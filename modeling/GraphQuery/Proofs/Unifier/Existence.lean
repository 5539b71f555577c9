import GraphQuery.Proofs.Atom.Signature
import GraphQuery.Proofs.Unifier.Unification

/-!
# When an exact unifier exists

The key of an atom numbers its variables and lists the roles of its players, each apart from the
other, and it has only the label of a type that has one. So atoms with equal keys may differ in what
the parts share: whether the variable of the atom, or that of the type, is one of the players, and
whether the two are the same. An exact unifier exists when the keys are equal and the atoms agree in
that as well.
-/

namespace GraphQuery

namespace AtomKind

/-- A fixed pair is the only one and of the variables of types, or it is of numbered variables that
correspond and nothing has players. -/
theorem typeVar?_or_numbered_of_mem_fixedPairs {R : Variable → Variable → Prop}
    {S : List RolePlayer → List RolePlayer → Prop} {k l : AtomKind}
    (h : k.Corresponds .alpha R S l) {pair : Variable × Variable} (hpair : pair ∈ k.fixedPairs l) :
    (k.fixedPairs l = [pair] ∧ pair.1 ∈ k.typeVar? ∧ pair.2 ∈ l.typeVar?) ∨
      (pair.1 ∈ k.numbered ∧ pair.2 ∈ l.numbered ∧ R pair.1 pair.2 ∧
        k.players = [] ∧ l.players = []) := by
  cases h with
  | isa _ =>
    obtain rfl := List.mem_singleton.1 hpair
    exact .inl ⟨rfl, rfl, rfl⟩
  | sub _ =>
    obtain rfl := List.mem_singleton.1 hpair
    exact .inl ⟨rfl, rfl, rfl⟩
  | dataType => cases hpair
  | resource howned hpredicates =>
    right
    rcases List.mem_cons.1 hpair with rfl | hpair
    · exact ⟨List.mem_cons_self, List.mem_cons_self, howned, rfl, rfl⟩
    · cases hpredicates with
      | none => cases hpair
      | @some p q hpq =>
        obtain ⟨comparator, a⟩ := p
        obtain ⟨comparator', b⟩ := q
        obtain ⟨-, hab⟩ := hpq
        cases hab with
        | constant _ => cases hpair
        | var hvw =>
          obtain rfl := List.mem_singleton.1 hpair
          exact ⟨List.mem_cons_of_mem _ List.mem_cons_self,
            List.mem_cons_of_mem _ List.mem_cons_self, hvw, rfl, rfl⟩
  | @relation v w label as bs _ _ =>
    left
    cases v with
    | none => cases hpair
    | some v =>
      cases w with
      | none => cases hpair
      | some w =>
        obtain rfl := List.mem_singleton.1 hpair
        exact ⟨rfl, rfl, rfl⟩
  | @value p q hpq =>
    right
    obtain ⟨comparator, a⟩ := p
    obtain ⟨comparator', b⟩ := q
    obtain ⟨-, hab⟩ := hpq
    cases hab with
    | constant _ => cases hpair
    | var hvw =>
      obtain rfl := List.mem_singleton.1 hpair
      exact ⟨List.mem_cons_self, List.mem_cons_self, hvw, rfl, rfl⟩
  | identity _ => cases hpair
  | neq hvw =>
    obtain rfl := List.mem_singleton.1 hpair
    exact .inr ⟨List.mem_cons_self, List.mem_cons_self, hvw, rfl, rfl⟩

theorem mem_fixedPairs_of_typeVar? {R : Variable → Variable → Prop}
    {S : List RolePlayer → List RolePlayer → Prop} {k l : AtomKind}
    (h : k.Corresponds .alpha R S l) {v w : Variable} (hv : v ∈ k.typeVar?) (hw : w ∈ l.typeVar?) :
    (v, w) ∈ k.fixedPairs l := by
  cases h with
  | isa _ =>
    cases hv
    cases hw
    exact List.mem_cons_self
  | sub _ =>
    cases hv
    cases hw
    exact List.mem_cons_self
  | relation _ _ =>
    cases hv
    cases hw
    exact List.mem_cons_self
  | _ => cases hv

end AtomKind

namespace Atom

variable {a b : Atom}

/-- What two atoms with equal keys may still share differently: the variable that they are about, that
of the type and the players. -/
structure SharesLike (a b : Atom) : Prop where
  type : ∀ v ∈ a.kind.typeVar?, ∀ w ∈ b.kind.typeVar?, v = a.var ↔ w = b.var
  varRoles : RolePlayer.rolesOf a.kind.players a.var = RolePlayer.rolesOf b.kind.players b.var
  typeRoles : ∀ v ∈ a.kind.typeVar?, ∀ w ∈ b.kind.typeVar?,
    RolePlayer.rolesOf a.kind.players v = RolePlayer.rolesOf b.kind.players w

/-- The pairs of variables that every exact unifier of two atoms has. -/
def fixedPairs (a b : Atom) : List (Variable × Variable) :=
  (a.var, b.var) :: a.kind.fixedPairs b.kind

/-- What a candidate has besides the fixed pairs is a pairing of the players. -/
theorem mem_candidates_iff {s : Substitution} {strictness : Strictness}
    (h : a.kind.compatible b.kind = true) :
    s ∈ a.candidates b strictness ↔
      ∃ tail ∈ RolePlayer.pairings strictness a.kind.players b.kind.players,
        .ofPairs (a.fixedPairs b ++ tail) = s := by
  rw [mem_candidates, AtomKind.correspondences_eq h]
  constructor
  · rintro ⟨pairs, hpairs, rfl⟩
    obtain ⟨tail, htail, rfl⟩ := List.mem_map.1 hpairs
    exact ⟨tail, htail, rfl⟩
  · rintro ⟨tail, htail, rfl⟩
    exact ⟨_, List.mem_map_of_mem htail, rfl⟩

/-- An exact unifier is a renaming of the players that respects the fixed pairs. -/
theorem exists_mem_unify_exact_iff :
    (∃ u : Unifier, u ∈ (a.unify b .exact).toList) ↔
      a.equivalent .alpha b = true ∧ ∃ σ : Equiv.Perm Variable,
        (∀ pair ∈ a.fixedPairs b, σ pair.1 = pair.2) ∧
          RolePlayer.RenameTo σ a.kind.players b.kind.players := by
  constructor
  · rintro ⟨u, hu⟩
    obtain ⟨s, hs, rfl⟩ := MultiUnifier.mem_toList.1 hu
    obtain ⟨hcompatible, hequivalent, hcandidate, hone⟩ := mem_unify_exact.1 hs
    obtain ⟨tail, htail, rfl⟩ := (mem_candidates_iff hcompatible).1 hcandidate
    obtain ⟨σ, hσ⟩ := hone.exists_perm
    have hsent : ∀ pair ∈ a.fixedPairs b ++ tail, σ pair.1 = pair.2 := by
      intro pair hpair
      have hmem := Substitution.mem_ofPairs.2 hpair
      rw [← hσ pair.1 (Substitution.mem_keys.2 ⟨pair.2, hmem⟩), hone.image_eq hmem]
    refine ⟨hequivalent, σ, fun pair hpair => hsent pair (List.mem_append_left _ hpair), ?_⟩
    exact RolePlayer.renameTo_iff_exists_pairing.2
      ⟨tail, htail, fun pair hpair => hsent pair (List.mem_append_right _ hpair)⟩
  · rintro ⟨hequivalent, σ, hfixed, hplayers⟩
    have hcompatible : a.kind.compatible b.kind = true :=
      AtomKind.compatible_of_corresponds (equivalent_iff.1 hequivalent)
    obtain ⟨tail, htail, hσ⟩ := RolePlayer.renameTo_iff_exists_pairing.1 hplayers
    let s := Substitution.ofPairs (a.fixedPairs b ++ tail)
    have hsent : ∀ pair ∈ s.pairs, σ pair.1 = pair.2 := by
      intro pair hpair
      rw [Substitution.mem_ofPairs] at hpair
      exact (List.mem_append.1 hpair).elim (hfixed pair) (hσ pair)
    have hone : s.OneToOne := by
      intro p hp q hq
      rw [← hsent p hp, ← hsent q hq, σ.injective.eq_iff]
    have hcandidate : s ∈ a.candidates b .exact :=
      (mem_candidates_iff hcompatible).2 ⟨tail, htail, rfl⟩
    exact ⟨.mapping s, MultiUnifier.mem_toList.2
      ⟨s, mem_unify_exact.2 ⟨hcompatible, hequivalent, hcandidate, hone⟩, rfl⟩⟩

/-- The fixed pairs of atoms with equal keys are one-to-one as soon as the atoms agree in whether they
are about the variable of the type. -/
theorem oneToOne_fixedPairs (hequivalent : a.equivalent .alpha b = true)
    (htype : ∀ v ∈ a.kind.typeVar?, ∀ w ∈ b.kind.typeVar?, v = a.var ↔ w = b.var) :
    ∀ p ∈ a.fixedPairs b, ∀ q ∈ a.fixedPairs b, p.1 = q.1 ↔ p.2 = q.2 := by
  have hkinds := equivalent_iff.1 hequivalent
  have hslots {v v' w w' : Variable} (hv : v ∈ a.slots) (hw : w ∈ b.slots)
      (hvw : a.slots.idxOf v = b.slots.idxOf w) (hvw' : a.slots.idxOf v' = b.slots.idxOf w') :
      v = v' ↔ w = w' := by
    rw [← List.idxOf_inj hv, ← List.idxOf_inj hw, hvw, hvw']
  have hzero : a.slots.idxOf a.var = b.slots.idxOf b.var := by
    rw [slots, slots, List.eraseDups_cons, List.eraseDups_cons, List.idxOf_cons_self,
      List.idxOf_cons_self]
  have hvar : ∀ p ∈ a.kind.fixedPairs b.kind, p.1 = a.var ↔ p.2 = b.var := by
    intro p hp
    rcases AtomKind.typeVar?_or_numbered_of_mem_fixedPairs hkinds hp with
      ⟨-, hv, hw⟩ | ⟨hv, hw, hvw, -⟩
    · exact htype _ hv _ hw
    · exact hslots (mem_slots.2 (.inr hv)) (mem_slots.2 (.inr hw)) hvw hzero
  intro p hp q hq
  rcases List.mem_cons.1 hp with rfl | hp
  · rcases List.mem_cons.1 hq with rfl | hq
    · exact iff_of_true rfl rfl
    · rw [eq_comm, hvar q hq, eq_comm]
  · rcases List.mem_cons.1 hq with rfl | hq
    · exact hvar p hp
    · rcases AtomKind.typeVar?_or_numbered_of_mem_fixedPairs hkinds hp with
        ⟨hsingle, -, -⟩ | ⟨hv, hw, hvw, -⟩
      · rw [hsingle, List.mem_singleton] at hq
        exact iff_of_true (congrArg _ hq.symm) (congrArg _ hq.symm)
      · rcases AtomKind.typeVar?_or_numbered_of_mem_fixedPairs hkinds hq with
          ⟨hsingle, -, -⟩ | ⟨-, -, hvw', -⟩
        · rw [hsingle, List.mem_singleton] at hp
          exact iff_of_true (congrArg _ hp) (congrArg _ hp)
        · exact hslots (mem_slots.2 (.inr hv)) (mem_slots.2 (.inr hw)) hvw hvw'

/-- The fixed pairs have the same roles on both sides when the variables of the atoms have, and those
of the types: an atom with other fixed pairs has no players. -/
theorem rolesOf_fixedPairs_iff (hequivalent : a.equivalent .alpha b = true) :
    (∀ pair ∈ a.fixedPairs b,
        RolePlayer.rolesOf a.kind.players pair.1 = RolePlayer.rolesOf b.kind.players pair.2) ↔
      RolePlayer.rolesOf a.kind.players a.var = RolePlayer.rolesOf b.kind.players b.var ∧
        ∀ v ∈ a.kind.typeVar?, ∀ w ∈ b.kind.typeVar?,
          RolePlayer.rolesOf a.kind.players v = RolePlayer.rolesOf b.kind.players w := by
  have hkinds := equivalent_iff.1 hequivalent
  rw [fixedPairs, List.forall_mem_cons]
  apply and_congr_right'
  constructor
  · intro h v hv w hw
    exact h (v, w) (AtomKind.mem_fixedPairs_of_typeVar? hkinds hv hw)
  · intro h pair hpair
    rcases AtomKind.typeVar?_or_numbered_of_mem_fixedPairs hkinds hpair with
      ⟨-, hv, hw⟩ | ⟨-, -, -, ha, hb⟩
    · exact h _ hv _ hw
    · rw [ha, hb]
      rfl

/-- Atoms have an exact unifier just when they are alpha-equivalent and share alike what their keys
tell nothing about. -/
theorem exists_exact_unifier_iff (a b : Atom) :
    (∃ u : Unifier, u ∈ (a.unify b .exact).toList) ↔
      a.equivalent .alpha b = true ∧ a.SharesLike b := by
  rw [exists_mem_unify_exact_iff]
  apply and_congr_right
  intro hequivalent
  have hsignature := (equivalent_iff.1 hequivalent).players rfl
  constructor
  · rintro ⟨σ, hfixed, hplayers⟩
    have hone : ∀ p ∈ a.fixedPairs b, ∀ q ∈ a.fixedPairs b, p.1 = q.1 ↔ p.2 = q.2 := by
      intro p hp q hq
      rw [← hfixed p hp, ← hfixed q hq, σ.injective.eq_iff]
    have hroles := (RolePlayer.exists_renameTo_iff hsignature hone).1 ⟨σ, hfixed, hplayers⟩
    obtain ⟨hvar, htype⟩ := (rolesOf_fixedPairs_iff hequivalent).1 hroles
    refine ⟨?_, hvar, htype⟩
    intro v hv w hw
    have hpair := AtomKind.mem_fixedPairs_of_typeVar? (equivalent_iff.1 hequivalent) hv hw
    exact hone _ (List.mem_cons_of_mem _ hpair) _ List.mem_cons_self
  · intro hshares
    apply (RolePlayer.exists_renameTo_iff hsignature
      (oneToOne_fixedPairs hequivalent hshares.type)).2
    exact (rolesOf_fixedPairs_iff hequivalent).2 ⟨hshares.varRoles, hshares.typeRoles⟩

/-- A relation that plays a role in itself has the key of one with another player, but none of their
variables can be exchanged one for one. -/
theorem alpha_equivalent_without_unifier :
    let role : Option Label := some ⟨"member"⟩
    let a : Atom := ⟨.named "r", .about (.named "r"), ⟨0⟩,
      .relation none none [⟨role, .named "r"⟩]⟩
    let b : Atom := ⟨.named "r", .about (.named "r"), ⟨0⟩,
      .relation none none [⟨role, .named "x"⟩]⟩
    a.equivalent .alpha b = true ∧ (a.unify b .exact).toList = [] := by
  constructor <;> cbv

end Atom

end GraphQuery
