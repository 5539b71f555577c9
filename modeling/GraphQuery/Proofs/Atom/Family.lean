import GraphQuery.Atom.Family

/-!
# What a further member does to families

A member that is added comes last in the family of the atoms with its key and changes no other.
-/

namespace GraphQuery

namespace KeyedAtom

theorem beq_iff {a b : KeyedAtom} :
    (a == b) = true ↔ a.equivalence = b.equivalence ∧ a.key = b.key := by
  change (decide (a.equivalence = b.equivalence) && decide (a.key = b.key)) = true ↔ _
  rw [Bool.and_eq_true, decide_eq_true_iff, decide_eq_true_iff]

instance : EquivBEq KeyedAtom where
  rfl := beq_iff.2 ⟨rfl, rfl⟩
  symm h := beq_iff.2 ((beq_iff.1 h).imp Eq.symm Eq.symm)
  trans h k := beq_iff.2
    ⟨(beq_iff.1 h).1.trans (beq_iff.1 k).1, (beq_iff.1 h).2.trans (beq_iff.1 k).2⟩

theorem mk_beq_mk (equivalence : Equivalence) (a b : Atom) :
    (mk equivalence a == mk equivalence b) = a.equivalent equivalence b := by
  rw [Bool.eq_iff_iff, beq_iff, Atom.equivalent, decide_eq_true_iff]
  exact and_iff_right rfl

end KeyedAtom

namespace AtomFamilies

theorem members_addTo (key key' : AtomKey) (a : Atom) (cs : List (AtomKey × List Atom)) :
    (((addTo key a cs).find? (·.1 = key')).map (·.2)).getD [] =
      if key = key' then ((cs.find? (·.1 = key')).map (·.2)).getD [] ++ [a]
      else ((cs.find? (·.1 = key')).map (·.2)).getD [] := by
  induction cs with
  | nil => by_cases h : key = key' <;> simp [addTo, h]
  | cons c cs ih =>
    rw [addTo]
    by_cases hc : c.1 = key
    · subst hc
      by_cases h : c.1 = key' <;> simp [h]
    · rw [if_neg hc]
      by_cases h : c.1 = key'
      · subst h
        simp [Ne.symm hc]
      · simpa [h] using ih

theorem family_insert (F : AtomFamilies) (a b : Atom) :
    (F.insert a).family b =
      if a.equivalent F.equivalence b then F.family b ++ [a] else F.family b := by
  rw [family, family, insert, members_addTo, Atom.equivalent]
  simp only [decide_eq_true_eq]

end AtomFamilies

end GraphQuery
