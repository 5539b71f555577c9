import GraphQuery.Proofs.Pattern.Acceptance
import GraphQuery.Proofs.Pattern.Bound
import GraphQuery.Proofs.Pattern.Congruence

/-!
# The order of parts

The parts of a conjunction are combined and those of a disjunction listed one after the other, so
their order decides in which order the conjunctions of an expansion come, in which order the
statements of each of them stand, and which of several equal ones is kept. It decides nothing else:
patterns that differ in the order of parts, at any depth, have equal normal forms and equal bounds and
are accepted under the same limits.
-/

namespace GraphQuery.Pattern

/-- One tree up to the order in which the parts of its conjunctions and disjunctions stand. -/
inductive Reordered : Pattern → Pattern → Prop
  | statement (s : Statement) : Reordered (.statement s) (.statement s)
  | conjunction {ps rs qs : List Pattern} :
    List.Forall₂ Reordered ps rs → rs.Perm qs → Reordered (.conjunction ps) (.conjunction qs)
  | disjunction {ps rs qs : List Pattern} :
    List.Forall₂ Reordered ps rs → rs.Perm qs → Reordered (.disjunction ps) (.disjunction qs)
  | negation {p q : Pattern} : Reordered p q → Reordered (.negation p) (.negation q)

variable {isDenied : Bool} {p q r : Pattern} {ps qs : List Pattern}

theorem ExpandsLike.refl (p : Pattern) : ExpandsLike isDenied p p :=
  ⟨coversConjunctions_of_mem_iff fun _ => Iff.rfl, rfl⟩

theorem ExpandsLike.trans (h : ExpandsLike isDenied p q) (k : ExpandsLike isDenied q r) :
    ExpandsLike isDenied p r := ⟨coversConjunctions_trans h.covers k.covers, h.count.trans k.count⟩

theorem covers_alternatives_of_perm (h : ps.Perm qs) :
    CoversConjunctions (alternatives ps isDenied) (alternatives qs isDenied) := by
  apply coversConjunctions_of_mem_iff
  intro c
  simp only [mem_alternatives, h.mem_iff]

/-- Two lists of conjunctions can be appended in either order. -/
theorem covers_append_right_comm (fronts as bs : List (List Statement)) :
    CoversConjunctions (append (append fronts as) bs) (append (append fronts bs) as) := by
  have hswap (front a b : List Statement) : (front ++ a ++ b).Perm (front ++ b ++ a) := by
    rw [List.append_assoc, List.append_assoc]
    exact List.perm_append_comm.append_left front
  constructor
  · intro c hc
    obtain ⟨_, h, b, hb, rfl⟩ := mem_append.1 hc
    obtain ⟨front, hfront, a, ha, rfl⟩ := mem_append.1 h
    exact ⟨_, mem_append.2 ⟨_, mem_append.2 ⟨front, hfront, b, hb, rfl⟩, a, ha, rfl⟩,
      covers_of_perm (hswap front a b)⟩
  · intro c hc
    obtain ⟨_, h, a, ha, rfl⟩ := mem_append.1 hc
    obtain ⟨front, hfront, b, hb, rfl⟩ := mem_append.1 h
    exact ⟨_, mem_append.2 ⟨_, mem_append.2 ⟨front, hfront, a, ha, rfl⟩, b, hb, rfl⟩,
      covers_of_perm (hswap front a b)⟩

theorem covers_combinations_of_perm (h : ps.Perm qs) (fronts : List (List Statement)) :
    CoversConjunctions (combinations fronts ps isDenied) (combinations fronts qs isDenied) := by
  induction h generalizing fronts with
  | nil => exact coversConjunctions_of_mem_iff fun _ => Iff.rfl
  | cons p _ ih => exact ih _
  | swap p q ps =>
    have hsame : List.Forall₂ (ExpandsLike isDenied) ps ps := List.forall₂_same.2 fun p _ => .refl p
    exact covers_combinations hsame (covers_append_right_comm ..)
  | trans _ _ ih ih' => exact coversConjunctions_trans (ih fronts) (ih' fronts)

theorem addCapped_right_comm (n a b : Nat) :
    addCapped (addCapped n a) b = addCapped (addCapped n b) a := by
  unfold addCapped
  omega

/-- Where one of two factors takes a product to the cap, the other keeps it there or makes it zero. -/
theorem mulCapped_mulCapped (n a b : Nat) :
    mulCapped (mulCapped n a) b = min (n * a * b) countCap := by
  have h := capped_mul_congr (capped_capped (n * a)) b
  simpa only [capped, mulCapped] using h

theorem mulCapped_right_comm (n a b : Nat) :
    mulCapped (mulCapped n a) b = mulCapped (mulCapped n b) a := by
  rw [mulCapped_mulCapped, mulCapped_mulCapped, Nat.mul_right_comm]

theorem countSum_perm (h : ps.Perm qs) (total : Nat) :
    countSum total ps isDenied = countSum total qs isDenied := by
  induction h generalizing total with
  | nil => rfl
  | cons p _ ih => exact ih _
  | swap p q ps => rw [countSum, countSum, countSum, countSum, addCapped_right_comm]
  | trans _ _ ih ih' => exact (ih total).trans (ih' total)

theorem countProduct_perm (h : ps.Perm qs) (total : Nat) :
    countProduct total ps isDenied = countProduct total qs isDenied := by
  induction h generalizing total with
  | nil => rfl
  | cons p _ ih => exact ih _
  | swap p q ps => rw [countProduct, countProduct, countProduct, countProduct, mulCapped_right_comm]
  | trans _ _ ih ih' => exact (ih total).trans (ih' total)

theorem expandsLike_conjunction_of_perm (h : ps.Perm qs) :
    ExpandsLike isDenied (conjunction ps) (conjunction qs) := by
  cases isDenied with
  | false => exact ⟨covers_combinations_of_perm h [[]], countProduct_perm h 1⟩
  | true => exact ⟨covers_alternatives_of_perm h, countSum_perm h 0⟩

theorem expandsLike_disjunction_of_perm (h : ps.Perm qs) :
    ExpandsLike isDenied (disjunction ps) (disjunction qs) := by
  cases isDenied with
  | false => exact ⟨covers_alternatives_of_perm h, countSum_perm h 0⟩
  | true => exact ⟨covers_combinations_of_perm h [[]], countProduct_perm h 1⟩

/-- Induction on two patterns at once that differ in the order of parts. -/
theorem Reordered.induction {motive : Pattern → Pattern → Prop}
    (statement : ∀ s, motive (.statement s) (.statement s))
    (conjunction : ∀ ps rs qs, List.Forall₂ motive ps rs → rs.Perm qs →
      motive (.conjunction ps) (.conjunction qs))
    (disjunction : ∀ ps rs qs, List.Forall₂ motive ps rs → rs.Perm qs →
      motive (.disjunction ps) (.disjunction qs))
    (negation : ∀ p q, motive p q → motive (.negation p) (.negation q))
    (h : p.Reordered q) : motive p q :=
  @Reordered.rec (fun p q _ => motive p q) (fun ps rs _ => List.Forall₂ motive ps rs) statement
    (fun _ hperm ih => conjunction _ _ _ ih hperm) (fun _ hperm ih => disjunction _ _ _ ih hperm)
    (fun _ ih => negation _ _ ih) .nil (fun _ _ ih ih' => .cons ih ih') p q h

theorem Reordered.expandsLike (h : p.Reordered q) (isDenied : Bool) : ExpandsLike isDenied p q := by
  refine Reordered.induction (motive := fun p q => ∀ isDenied, ExpandsLike isDenied p q)
    ?_ ?_ ?_ ?_ h isDenied
  · exact fun s isDenied => .refl _
  · intro ps rs qs ih hperm isDenied
    exact (expandsLike_conjunction (ih.imp fun _ _ h => h isDenied)).trans
      (expandsLike_conjunction_of_perm hperm)
  · intro ps rs qs ih hperm isDenied
    exact (expandsLike_disjunction (ih.imp fun _ _ h => h isDenied)).trans
      (expandsLike_disjunction_of_perm hperm)
  · exact fun p q ih isDenied => ⟨(ih !isDenied).covers, (ih !isDenied).count⟩

/-- Patterns that differ in the order of parts have equal normal forms and equal bounds, and under
every limit both are accepted or both rejected. -/
theorem normalForm_reordered (h : p.Reordered q) :
    (p.normalForm == q.normalForm) = true ∧ p.bound = q.bound ∧
      ∀ limit, (p.validate limit).isOk = (q.validate limit).isOk := by
  have hlike := h.expandsLike false
  have hform := normalForm_beq_iff.2 hlike.covers
  exact ⟨hform, hlike.count, isOk_validate_congr hform hlike.count⟩

/-- A person who is mentioned twice, with another variable for the type each time, and a denial of
several parts. The normal forms keep different ones of the two mentions. -/
theorem normalForm_reordered_persons :
    let person (n : UInt64) : Pattern :=
      .statement ⟨.named "x", .positive, [.isa (.labelled (.generated n) ⟨"person"⟩) false]⟩
    let apart : Pattern := .statement ⟨.named "x", .positive, [.neq (.named "y"), .neq (.named "z")]⟩
    let named (name : String) : Pattern := .statement ⟨.named "x", .positive, [.label ⟨name⟩]⟩
    let p : Pattern := .conjunction [person 0,
      .negation (.conjunction [apart, .disjunction [named "a", named "b"]]), person 1]
    let q : Pattern := .conjunction [person 1,
      .negation (.conjunction [.disjunction [named "b", named "a"], apart]), person 0]
    p.Reordered q ∧ p.bound = 3 ∧ (p.validate 3).isOk = true ∧
      (p.normalForm == q.normalForm) = true ∧ p.bound = q.bound ∧
      ∀ limit, (p.validate limit).isOk = (q.validate limit).isOk := by
  intro person apart named p q
  have hnamed : Reordered (.disjunction [named "a", named "b"])
      (.disjunction [named "b", named "a"]) :=
    .disjunction (.cons (.statement _) (.cons (.statement _) .nil)) (.swap ..)
  have hdenied : Reordered (.conjunction [apart, .disjunction [named "a", named "b"]])
      (.conjunction [.disjunction [named "b", named "a"], apart]) :=
    .conjunction (.cons (.statement _) (.cons hnamed .nil)) (.swap ..)
  have h : p.Reordered q :=
    .conjunction (.cons (.statement _) (.cons (.negation hdenied) (.cons (.statement _) .nil)))
      (List.reverse_perm _).symm
  exact ⟨h, by decide, by decide, normalForm_reordered h⟩

end GraphQuery.Pattern
