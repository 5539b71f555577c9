import GraphQuery.Proofs.Atom.Subsumption
import GraphQuery.Proofs.Unifier.Existence

/-!
# Unification for rules

A unifier for a rule sends the variables of the child that are no players to the parent's in the same
places, and its players as some matching of them does. Every exact unifier is one, since an exact
pairing of players is also one for a rule. Atoms that are alpha-equivalent have such a pairing even
where no exact unifier exists, and a predicate that only one of two resources has never clashes; so
an atom unifies with every atom that it subsumes, either way round.
-/

namespace GraphQuery.Atom

variable {s : Substitution} {a b : Atom}

theorem mem_unify_rule :
    s ∈ (a.unify b .rule).members ↔
      a.kind.compatible b.kind = true ∧ s ∈ a.candidates b .rule := by
  rw [unify]
  by_cases hcompatible : a.kind.compatible b.kind = true
  · simp [hcompatible]
  · simp [hcompatible, MultiUnifier.mem_nonExistent]

theorem mem_unify_rule_iff_matching :
    s ∈ (a.unify b .rule).members ↔ a.kind.compatible b.kind = true ∧
      ∃ m : RolePlayer.Matching .rule a.kind.players b.kind.players,
        .ofPairs (a.fixedPairs b ++ m.pairs) = s := by
  rw [mem_unify_rule]
  apply and_congr_right
  intro hcompatible
  rw [mem_candidates_iff hcompatible]
  constructor
  · rintro ⟨tail, htail, rfl⟩
    obtain ⟨m, rfl⟩ := RolePlayer.mem_pairings_rule_iff.1 htail
    exact ⟨m, rfl⟩
  · rintro ⟨m, rfl⟩
    exact ⟨m.pairs, RolePlayer.mem_pairings_rule_iff.2 ⟨m, rfl⟩, rfl⟩

theorem mem_unify_rule_of_exact (h : s ∈ (a.unify b .exact).members) :
    s ∈ (a.unify b .rule).members := by
  obtain ⟨hcompatible, -, hcandidate, -⟩ := mem_unify_exact.1 h
  obtain ⟨tail, htail, rfl⟩ := (mem_candidates_iff hcompatible).1 hcandidate
  refine mem_unify_rule.2 ⟨hcompatible, (mem_candidates_iff hcompatible).2 ⟨tail, ?_, rfl⟩⟩
  exact RolePlayer.mem_pairings_rule_of_exact htail

/-- Whether there is a unifier for a rule depends on the players only as far as they can be matched. -/
theorem exists_mem_unify_rule (hcompatible : a.kind.compatible b.kind = true)
    (m : RolePlayer.Matching .rule a.kind.players b.kind.players) :
    ∃ u : Unifier, u ∈ (a.unify b .rule).toList :=
  ⟨_, MultiUnifier.mem_toList.2 ⟨_, mem_unify_rule_iff_matching.2 ⟨hcompatible, m, rfl⟩, rfl⟩⟩

/-- Players with the same signature are renamings of each other, hence matched one by one. -/
theorem exists_mem_unify_rule_of_equivalent (h : a.equivalent .alpha b = true) :
    ∃ u : Unifier, u ∈ (a.unify b .rule).toList := by
  have hkinds := equivalent_iff.1 h
  obtain ⟨σ, hσ⟩ := RolePlayer.signature_eq_iff.1 (hkinds.players rfl)
  obtain ⟨pairs, hpairs, -⟩ := RolePlayer.renameTo_iff_exists_pairing.1 hσ
  obtain ⟨m, -⟩ := RolePlayer.mem_pairings_rule_iff.1 (RolePlayer.mem_pairings_rule_of_exact hpairs)
  exact exists_mem_unify_rule (AtomKind.compatible_of_corresponds hkinds) m

theorem exists_mem_unify_rule_of_resources {l : Label} {v w : Variable} {p q : Option ValuePredicate}
    (ha : a.kind = .resource l v p) (hb : b.kind = .resource l w q)
    (hpq : predicatesCompatible p q = true) : ∃ u : Unifier, u ∈ (a.unify b .rule).toList := by
  have hcompatible : a.kind.compatible b.kind = true := by
    rw [ha, hb, AtomKind.compatible, hpq, Bool.and_true]
    exact decide_eq_true rfl
  apply exists_mem_unify_rule hcompatible
  rw [ha, hb]
  exact ⟨[], .refl _, .nil⟩

theorem exists_mem_unify_rule_of_subsumes (h : a.subsumes b = true) :
    (∃ u : Unifier, u ∈ (a.unify b .rule).toList) ∧
      ∃ u : Unifier, u ∈ (b.unify a .rule).toList := by
  have hequivalent (h : a.alphaKey = b.alphaKey) := And.intro
    (exists_mem_unify_rule_of_equivalent (equivalent_alpha_iff.2 h))
    (exists_mem_unify_rule_of_equivalent (equivalent_alpha_iff.2 h.symm))
  rcases subsumes_iff.1 h with h | h
  · exact hequivalent h
  · rcases alphaKey_eq_or_resources h with h | ⟨l, v, w, p, ha, hb⟩
    · exact hequivalent h
    · exact ⟨exists_mem_unify_rule_of_resources ha hb rfl,
        exists_mem_unify_rule_of_resources hb ha rfl⟩

/-- Unification for rules is at least as permissive as exact unification and as subsumption. -/
theorem unify_rule_permissive (a b : Atom) :
    (∀ u : Unifier, u ∈ (a.unify b .exact).toList → u ∈ (a.unify b .rule).toList) ∧
      (a.subsumes b = true ∨ a.equivalent .alpha b = true →
        (∃ u : Unifier, u ∈ (a.unify b .rule).toList) ∧
          ∃ u : Unifier, u ∈ (b.unify a .rule).toList) := by
  constructor
  · intro u hu
    obtain ⟨s, hs, rfl⟩ := MultiUnifier.mem_toList.1 hu
    exact MultiUnifier.mem_toList.2 ⟨s, mem_unify_rule_of_exact hs, rfl⟩
  · rintro (h | h)
    · exact exists_mem_unify_rule_of_subsumes h
    · exact exists_mem_unify_rule_of_subsumes (subsumes_iff.2 (.inl (equivalent_alpha_iff.1 h)))

/-- Two players of the same role, one without, and relations whose players stand in another order. -/
theorem unify_rule_permissive_friends :
    let friend : Option Label := some ⟨"friend"⟩
    let a : Atom := ⟨.named "r", .about (.named "r"), ⟨0⟩, .relation (some (.generated 0)) none
      [⟨friend, .named "x"⟩, ⟨none, .named "z"⟩, ⟨friend, .named "y"⟩]⟩
    let b : Atom := ⟨.named "s", .about (.named "s"), ⟨1⟩, .relation (some (.named "t")) none
      [⟨none, .named "c"⟩, ⟨friend, .named "a"⟩, ⟨friend, .named "b"⟩]⟩
    let u : Unifier := .ofPairs [(.generated 0, .named "t"), (.named "r", .named "s"),
      (.named "x", .named "b"), (.named "y", .named "a"), (.named "z", .named "c")]
    u ∈ (a.unify b .exact).toList ∧ u ∈ (a.unify b .rule).toList ∧ a.subsumes b = true ∧
      (∃ u : Unifier, u ∈ (a.unify b .rule).toList) ∧
        ∃ u : Unifier, u ∈ (b.unify a .rule).toList := by
  intro friend a b u
  have hexact : u ∈ (a.unify b .exact).toList := List.contains_iff_mem.1 (by cbv)
  have hsubsumes : a.subsumes b = true := by cbv
  obtain ⟨hunifiers, hsome⟩ := unify_rule_permissive a b
  exact ⟨hexact, hunifiers u hexact, hsubsumes, hsome (.inl hsubsumes)⟩

end GraphQuery.Atom
