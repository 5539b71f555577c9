import GraphQuery.Atom.Key
import GraphQuery.Proofs.Collection.Lists
import Mathlib.Order.Defs.Unbundled

/-!
# Subsumption

An atom subsumes another one when it has the other's key, or what is left of that key without the
predicate on the attribute. It makes no difference whether the predicate is left out of the atom or
of its key: the variable that it compares with is numbered last, so no other position depends on it.
Subsumption is therefore an order of the keys, and its laws on atoms are those of that order.
-/

namespace GraphQuery

namespace AtomKey

def withoutPredicate : AtomKey → AtomKey
  | resource attributeType owned _ => resource attributeType owned none
  | key => key

theorem withoutPredicate_withoutPredicate (k : AtomKey) :
    k.withoutPredicate.withoutPredicate = k.withoutPredicate := by
  cases k <;> rfl

theorem kindName_withoutPredicate (k : AtomKey) : k.withoutPredicate.kindName = k.kindName := by
  cases k <;> rfl

/-- The key is the other one, with its predicate or without. -/
def Covers (k l : AtomKey) : Prop := k = l ∨ k = l.withoutPredicate

instance : IsPartialOrder AtomKey Covers where
  refl _ := .inl rfl
  trans k l m hkl hlm := by
    rcases hlm with rfl | rfl
    · exact hkl
    · rw [Covers, withoutPredicate_withoutPredicate, or_self] at hkl
      exact .inr hkl
  antisymm k l hkl hlk := by
    rcases hkl with rfl | hkl
    · rfl
    · rcases hlk with rfl | hlk
      · rfl
      · rw [hkl, hlk, withoutPredicate_withoutPredicate]

theorem Covers.kindName_eq {k l : AtomKey} (h : k.Covers l) : k.kindName = l.kindName := by
  rcases h with rfl | rfl
  · rfl
  · exact kindName_withoutPredicate l

end AtomKey

namespace Atom

variable {a b c : Atom}

theorem equivalent_alpha_iff : a.equivalent .alpha b = true ↔ a.alphaKey = b.alphaKey :=
  decide_eq_true_iff

theorem kindName_alphaKey (a : Atom) : a.alphaKey.kindName = a.kind.name := by
  obtain ⟨var, source, parent, kind⟩ := a
  cases kind <;> rfl

/-- The position of the attribute is the same with and without the operand of the predicate. -/
theorem alphaKey_withoutPredicate (a : Atom) :
    a.withoutPredicate.alphaKey = a.alphaKey.withoutPredicate := by
  obtain ⟨var, source, parent, kind⟩ := a
  cases kind with
  | resource attributeType owned predicate =>
    have howned : owned ∈ [var, owned] := List.mem_cons_of_mem _ List.mem_cons_self
    exact congrArg (AtomKey.resource attributeType · none)
      (idxOf_eraseDups_append (predicate.bind (·.operand.var?)).toList howned).symm
  | _ => rfl

/-- A key is another one without its predicate only if it is that key, or of a resource without
predicate where the other is of one with. -/
theorem alphaKey_eq_or_resources (h : a.alphaKey = b.alphaKey.withoutPredicate) :
    a.alphaKey = b.alphaKey ∨ ∃ l v w p, a.kind = .resource l v none ∧
      b.kind = .resource l w (some p) := by
  obtain ⟨var, source, parent, kind⟩ := a
  obtain ⟨var', source', parent', kind'⟩ := b
  cases kind' with
  | resource l w predicate =>
    cases predicate with
    | none => exact .inl h
    | some p =>
      right
      cases kind with
      | resource l' v predicate =>
        obtain ⟨rfl, -, hpredicate⟩ := AtomKey.resource.inj h
        obtain rfl := Option.map_eq_none_iff.1 hpredicate
        exact ⟨l', v, w, p, rfl, rfl⟩
      | _ => cases h
  | _ => exact .inl h

theorem subsumes_iff : a.subsumes b = true ↔ a.alphaKey.Covers b.alphaKey := by
  rw [subsumes, Bool.or_eq_true, equivalent_alpha_iff]
  constructor
  · rintro (h | h)
    · exact .inl h
    · right
      rw [← alphaKey_withoutPredicate]
      split at h
      · exact equivalent_alpha_iff.1 h
      · cases h
  · rintro (h | h)
    · exact .inl h
    · rcases alphaKey_eq_or_resources h with h' | ⟨l, v, w, p, ha, hb⟩
      · exact .inl h'
      · right
        rw [ha, hb]
        exact equivalent_alpha_iff.2 (h.trans b.alphaKey_withoutPredicate.symm)

/-- Subsumption is a partial order of atoms, those that are alpha-equivalent taken for one. -/
structure SubsumptionOrder : Prop where
  refl : ∀ a : Atom, a.subsumes a = true
  trans : ∀ a b c : Atom, a.subsumes b = true → b.subsumes c = true → a.subsumes c = true
  antisymm_iff : ∀ a b : Atom,
    a.subsumes b = true ∧ b.subsumes a = true ↔ a.equivalent .alpha b = true
  /-- Atoms of different kinds are never related. -/
  kind_eq : ∀ a b : Atom, a.subsumes b = true → a.kind.name = b.kind.name
  /-- Alpha-equivalent atoms can stand for each other on either side. -/
  congr : ∀ a a' b b' : Atom, a.equivalent .alpha a' = true → b.equivalent .alpha b' = true →
    a.subsumes b = a'.subsumes b'

theorem subsumes_congr {a' b' : Atom} (ha : a.alphaKey = a'.alphaKey)
    (hb : b.alphaKey = b'.alphaKey) : a.subsumes b = a'.subsumes b' := by
  rw [Bool.eq_iff_iff, subsumes_iff, subsumes_iff, ha, hb]

theorem subsumes_partialOrder : SubsumptionOrder where
  refl a := subsumes_iff.2 (refl_of AtomKey.Covers a.alphaKey)
  trans a b c hab hbc :=
    subsumes_iff.2 (trans_of AtomKey.Covers (subsumes_iff.1 hab) (subsumes_iff.1 hbc))
  antisymm_iff a b := by
    rw [subsumes_iff, subsumes_iff, equivalent_alpha_iff]
    constructor
    · rintro ⟨hab, hba⟩
      exact antisymm_of AtomKey.Covers hab hba
    · intro h
      exact ⟨.inl h, .inl h.symm⟩
  kind_eq a b h := by
    rw [← kindName_alphaKey, ← kindName_alphaKey]
    exact (subsumes_iff.1 h).kindName_eq
  congr a a' b b' ha hb := subsumes_congr (equivalent_alpha_iff.1 ha) (equivalent_alpha_iff.1 hb)

end Atom

end GraphQuery
