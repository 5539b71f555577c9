import GraphQuery.Proofs.Collection.Lists
import GraphQuery.Proofs.Pattern.Meaning

/-!
# Equality of patterns is an equivalence

Patterns are equal when they are one tree with equal statements at its leaves: the parts of a
conjunction or disjunction are compared place by place.
-/

namespace GraphQuery.Pattern

theorem statement_beq_statement {s t : Statement} :
    (statement s == statement t) = true ↔ (s == t) = true := Iff.rfl

theorem alikeLists_iff {ps qs : List Pattern} :
    alikeLists ps qs = true ↔ List.Forall₂ (fun p q => (p == q) = true) ps qs := by
  induction ps generalizing qs with
  | nil => cases qs <;> simp [alikeLists]
  | cons p ps ih =>
    cases qs with
    | nil => simp [alikeLists]
    | cons q qs =>
      rw [alikeLists, Bool.and_eq_true, ih, List.forall₂_cons]
      rfl

theorem conjunction_beq_conjunction {ps qs : List Pattern} :
    (conjunction ps == conjunction qs) = true ↔
      List.Forall₂ (fun p q => (p == q) = true) ps qs := alikeLists_iff

theorem disjunction_beq_disjunction {ps qs : List Pattern} :
    (disjunction ps == disjunction qs) = true ↔
      List.Forall₂ (fun p q => (p == q) = true) ps qs := alikeLists_iff

theorem negation_beq_negation {p q : Pattern} :
    (negation p == negation q) = true ↔ (p == q) = true := Iff.rfl

/-- Induction on two equal patterns at once. -/
theorem beq_induction {motive : Pattern → Pattern → Prop}
    (statement : ∀ s t, (s == t) = true → motive (.statement s) (.statement t))
    (conjunction : ∀ ps qs, List.Forall₂ motive ps qs → motive (.conjunction ps) (.conjunction qs))
    (disjunction : ∀ ps qs, List.Forall₂ motive ps qs → motive (.disjunction ps) (.disjunction qs))
    (negation : ∀ p q, motive p q → motive (.negation p) (.negation q)) {p q : Pattern}
    (h : (p == q) = true) : motive p q := by
  have hparts {ps qs : List Pattern} (ih : ∀ p ∈ ps, ∀ {q}, (p == q) = true → motive p q)
      (h : List.Forall₂ (fun p q => (p == q) = true) ps qs) : List.Forall₂ motive ps qs :=
    ((List.forall₂_and_left _ _).2 ⟨fun _ hp => hp, h⟩).imp fun p q hpq => ih p hpq.1 hpq.2
  induction p using Pattern.induction generalizing q with
  | statement s =>
    cases q with
    | statement t => exact statement s t (statement_beq_statement.1 h)
    | _ => cases h
  | conjunction ps ih =>
    cases q with
    | conjunction qs => exact conjunction ps qs (hparts ih (conjunction_beq_conjunction.1 h))
    | _ => cases h
  | disjunction ps ih =>
    cases q with
    | disjunction qs => exact disjunction ps qs (hparts ih (disjunction_beq_disjunction.1 h))
    | _ => cases h
  | negation p ih =>
    cases q with
    | negation q => exact negation p q (ih (negation_beq_negation.1 h))
    | _ => cases h

theorem beq_refl (p : Pattern) : (p == p) = true := by
  induction p using Pattern.induction with
  | statement s => exact statement_beq_statement.2 BEq.rfl
  | conjunction ps ih => exact conjunction_beq_conjunction.2 (List.forall₂_same.2 ih)
  | disjunction ps ih => exact disjunction_beq_disjunction.2 (List.forall₂_same.2 ih)
  | negation p ih => exact negation_beq_negation.2 ih

theorem beq_symm {p q : Pattern} (h : (p == q) = true) : (q == p) = true := by
  refine beq_induction (motive := fun p q => (q == p) = true) ?_ ?_ ?_ ?_ h
  · exact fun s t h => statement_beq_statement.2 (BEq.symm h)
  · exact fun ps qs ih => conjunction_beq_conjunction.2 ih.flip
  · exact fun ps qs ih => disjunction_beq_disjunction.2 ih.flip
  · exact fun p q ih => negation_beq_negation.2 ih

theorem beq_trans {p q r : Pattern} (h : (p == q) = true) (k : (q == r) = true) :
    (p == r) = true := by
  refine beq_induction (motive := fun p q => ∀ r, (q == r) = true → (p == r) = true)
    ?_ ?_ ?_ ?_ h r k
  · intro s t h r k
    cases r with
    | statement u => exact statement_beq_statement.2 (BEq.trans h (statement_beq_statement.1 k))
    | _ => cases k
  · intro ps qs ih r k
    cases r with
    | conjunction rs =>
      have hparts := conjunction_beq_conjunction.1 k
      exact conjunction_beq_conjunction.2 (forall₂_comp (fun _ _ r h k => h r k) ih hparts)
    | _ => cases k
  · intro ps qs ih r k
    cases r with
    | disjunction rs =>
      have hparts := disjunction_beq_disjunction.1 k
      exact disjunction_beq_disjunction.2 (forall₂_comp (fun _ _ r h k => h r k) ih hparts)
    | _ => cases k
  · intro p q ih r k
    cases r with
    | negation r => exact negation_beq_negation.2 (ih r (negation_beq_negation.1 k))
    | _ => cases k

instance : EquivBEq Pattern where
  rfl := beq_refl _
  symm := beq_symm
  trans := beq_trans

end GraphQuery.Pattern
