import GraphQuery.Pattern.Validation
import GraphQuery.Proofs.Collection.Distinct
import GraphQuery.Proofs.Statement.Equality
import GraphQuery.Proofs.Traversal.Meaning

/-!
# Which normal forms are accepted

A normal form is accepted when it has a conjunction and each of its conjunctions asserts something and
names, in each denial, a variable that it names in an assertion. Equal statements name the same
variables, so of equal normal forms both are accepted or neither is: it makes no difference which of
several equal statements or conjunctions is kept.
-/

namespace GraphQuery

namespace Statement

variable {s t : Statement} {v : Variable}

theorem mem_namedVars : v ∈ s.namedVars ↔ v ∈ s.vars ∧ v.isNamed = true := by
  rw [namedVars, List.mem_filter]

theorem mem_vars_of_beq_of (h : (s == t) = true) (hv : v.isNamed = true)
    (hproperty : ∀ p ∈ s.properties, ∀ q, (p == q) = true → v ∈ p.vars → v ∈ q.vars)
    (hmem : v ∈ s.vars) : v ∈ t.vars := by
  obtain ⟨hvar, -, -, hsub, -⟩ := beq_iff.1 h
  rw [mem_vars] at hmem ⊢
  rcases hmem with rfl | ⟨p, hp, hmem⟩
  · exact .inl (Variable.eq_of_alike hvar hv)
  · obtain ⟨q, hq, hpq⟩ := hsub p hp
    exact .inr ⟨q, hq, hproperty p hp q hpq hmem⟩

end Statement

theorem Property.mem_vars_of_beq {p q : Property} {v : Variable} (h : (p == q) = true)
    (hv : v.isNamed = true) (hmem : v ∈ p.vars) : v ∈ q.vars := by
  have hkind := kind_eq_of_beq h
  induction p using Property.induction generalizing q with
  | has type owned ih =>
    cases q <;> cases hkind
    exact Statement.mem_vars_of_beq_of (has_beq_has.1 h).2 hv
      (fun p hp q hpq hmem => ih p hp hpq hmem (kind_eq_of_beq hpq)) hmem
  | other p hp =>
    cases p with
    | isa type direct =>
      cases q <;> cases hkind
      obtain rfl := List.mem_singleton.1 hmem
      have hvar := (TypeRef.beq_iff.1 (isa_beq_isa.1 h).1).1
      exact List.mem_singleton.2 (Variable.eq_of_alike (Variable.alike_iff.2 hvar) hv)
    | sub superType direct =>
      cases q <;> cases hkind
      obtain rfl := List.mem_singleton.1 hmem
      have hvar := (TypeRef.beq_iff.1 (sub_beq_sub.1 h).1).1
      exact List.mem_singleton.2 (Variable.eq_of_alike (Variable.alike_iff.2 hvar) hv)
    | label => cases hmem
    | id => cases hmem
    | dataType => cases hmem
    | has => exact absurd rfl hp
    | relation players =>
      cases q <;> cases hkind
      rename_i others
      obtain ⟨a, ha, rfl⟩ := List.mem_map.1 hmem
      have hshape := (relation_beq_relation.1 h).mem_iff.1 (List.mem_map.2 ⟨a, ha, rfl⟩)
      obtain ⟨b, hb, hab⟩ := List.mem_map.1 hshape
      have hname : b.player.name? = a.player.name? := (Prod.mk.inj hab).2
      exact List.mem_map.2 ⟨b, hb, (Variable.eq_of_alike (Variable.alike_iff.2 hname.symm) hv).symm⟩
    | value predicate =>
      cases q <;> cases hkind
      rename_i other
      obtain ⟨comparator, operand⟩ := predicate
      obtain ⟨comparator', operand'⟩ := other
      have hoperand := (value_beq_value.1 h).2
      cases operand <;> cases operand'
      case var.var =>
        obtain rfl := List.mem_singleton.1 hmem
        exact List.mem_singleton.2 (Variable.eq_of_alike hoperand hv)
      case constant.constant => cases hmem
      all_goals cases hoperand
    | neq other =>
      cases q <;> cases hkind
      obtain rfl := List.mem_singleton.1 hmem
      exact List.mem_singleton.2 (Variable.eq_of_alike (Variable.alike_iff.2 (neq_beq_neq.1 h)) hv)

theorem Statement.mem_namedVars_of_beq {s t : Statement} {v : Variable} (h : (s == t) = true)
    (hmem : v ∈ s.namedVars) : v ∈ t.namedVars := by
  rw [mem_namedVars] at hmem ⊢
  exact ⟨mem_vars_of_beq_of h hmem.2 (fun _ _ _ hpq => Property.mem_vars_of_beq hpq hmem.2) hmem.1,
    hmem.2⟩

namespace Conjunction

variable {c d : Conjunction}

theorem mem_boundVars {v : Variable} :
    v ∈ c.boundVars ↔ ∃ s ∈ c.toList, s.isNegative = false ∧ v ∈ s.namedVars := by
  rw [boundVars, List.mem_flatMap]
  simp only [positive, List.mem_filter, Bool.not_eq_true', and_assoc]

theorem unboundDenial?_eq_none_iff : c.unboundDenial? = none ↔
    ∀ s ∈ c.toList, s.isNegative = true → ∃ v ∈ s.namedVars, v ∈ c.boundVars := by
  rw [unboundDenial?, List.find?_eq_none]
  simp [negative]

/-- A conjunction can be run when it asserts something and each denial names a variable that an
assertion names. -/
theorem flaw?_eq_none_iff : c.flaw? = none ↔ (∃ s ∈ c.toList, s.isNegative = false) ∧
    ∀ s ∈ c.toList, s.isNegative = true → ∃ v ∈ s.namedVars, v ∈ c.boundVars := by
  have hpositive : c.positive.isEmpty = false ↔ ∃ s ∈ c.toList, s.isNegative = false := by
    simp [positive]
  rw [← unboundDenial?_eq_none_iff, ← hpositive, flaw?]
  cases hempty : c.isEmpty with
  | true =>
    have hnil : c.positive = [] := by
      rw [positive, List.isEmpty_iff.1 hempty]
      rfl
    simp [hnil]
  | false => cases c.positive.isEmpty <;> simp

theorem mem_boundVars_of_beq (h : (c == d) = true) {v : Variable} (hv : v ∈ c.boundVars) :
    v ∈ d.boundVars := by
  obtain ⟨s, hs, hpositive, hv⟩ := mem_boundVars.1 hv
  obtain ⟨t, ht, hst⟩ := (Distinct.beq_iff.1 h).2 s hs
  rw [Statement.isNegative_eq_of_beq hst] at hpositive
  exact mem_boundVars.2 ⟨t, ht, hpositive, Statement.mem_namedVars_of_beq hst hv⟩

theorem flaw?_eq_none_of_beq (h : (c == d) = true) (hc : c.flaw? = none) : d.flaw? = none := by
  rw [flaw?_eq_none_iff] at hc ⊢
  obtain ⟨⟨s, hs, hpositive⟩, hdenials⟩ := hc
  constructor
  · obtain ⟨t, ht, hst⟩ := (Distinct.beq_iff.1 h).2 s hs
    exact ⟨t, ht, Statement.isNegative_eq_of_beq hst ▸ hpositive⟩
  · intro t ht hnegative
    obtain ⟨u, hu, hut⟩ := Distinct.exists_beq_of_beq h t ht
    obtain ⟨v, hv, hbound⟩ := hdenials u hu (Statement.isNegative_eq_of_beq hut ▸ hnegative)
    exact ⟨v, Statement.mem_namedVars_of_beq hut hv, mem_boundVars_of_beq h hbound⟩

end Conjunction

namespace NormalForm

variable {f g : NormalForm}

theorem flaw?_eq_none_iff :
    f.flaw? = none ↔ f.toList ≠ [] ∧ ∀ c ∈ f.toList, c.flaw? = none := by
  rw [flaw?, ← List.findSome?_eq_none_iff]
  cases hempty : f.isEmpty with
  | true => simp [List.isEmpty_iff.1 hempty]
  | false => simp [List.isEmpty_eq_false_iff.1 hempty]

theorem flaw?_eq_none_of_beq (h : (f == g) = true) (hf : f.flaw? = none) : g.flaw? = none := by
  rw [flaw?_eq_none_iff] at hf ⊢
  obtain ⟨hne, hconjunctions⟩ := hf
  constructor
  · intro hnil
    have hlength := (Distinct.beq_iff.1 h).1
    rw [hnil, List.length_nil, List.length_eq_zero_iff] at hlength
    exact hne hlength
  · intro d hd
    obtain ⟨c, hc, hcd⟩ := Distinct.exists_beq_of_beq h d hd
    exact Conjunction.flaw?_eq_none_of_beq hcd (hconjunctions c hc)

theorem isOk_validate_iff : f.validate.isOk = true ↔ f.flaw? = none := by
  rw [validate]
  split
  · rename_i flaw hflaw
    simp [hflaw, Except.isOk, Except.toBool]
  · rename_i hnone
    simp [hnone, Except.isOk, Except.toBool]

/-- Of equal normal forms both are accepted or neither is. -/
theorem isOk_validate_congr (h : (f == g) = true) : f.validate.isOk = g.validate.isOk := by
  rw [Bool.eq_iff_iff, isOk_validate_iff, isOk_validate_iff]
  exact ⟨flaw?_eq_none_of_beq h, flaw?_eq_none_of_beq (BEq.symm h)⟩

end NormalForm

/-- Patterns with equal normal forms and equal bounds are both accepted or both rejected. -/
theorem Pattern.isOk_validate_congr {p q : Pattern}
    (hform : (p.normalForm == q.normalForm) = true) (hbound : p.bound = q.bound) (limit : Nat) :
    (p.validate limit).isOk = (q.validate limit).isOk := by
  rw [validate, validate, normalize, normalize, hbound]
  split
  · rfl
  · exact NormalForm.isOk_validate_congr hform

end GraphQuery
