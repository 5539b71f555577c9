import GraphQuery.Pattern.Validation
import GraphQuery.Proofs.Pattern.Expansion
import GraphQuery.Proofs.Statement.Splitting

/-!
# The bound on the number of conjunctions

The bound is counted without expanding the pattern, by sums and products that stop at a cap.
Stopping on the way makes no difference to where the count ends: zero annihilates and one preserves
what has been capped just as it does the number itself. So the bound is the number of conjunctions
of the expansion, as far as it is told from larger ones, and a limit below the cap is exceeded by
the one exactly when it is by the other.
-/

namespace GraphQuery

/-- A number as far as it is told from larger ones. -/
def capped (n : Nat) : Nat := min n countCap

theorem capped_of_le {n : Nat} (h : n ≤ countCap) : capped n = n := Nat.min_eq_left h

theorem capped_capped (n : Nat) : capped (capped n) = capped n := by
  unfold capped
  omega

theorem capped_add_congr {a b : Nat} (h : capped a = capped b) (n : Nat) :
    capped (a + n) = capped (b + n) := by
  unfold capped at h ⊢
  omega

/-- What is told from larger numbers of a product depends on no more of a factor: where the factor
reaches the cap, the product does too, unless it is zero. -/
theorem capped_mul_congr {a b : Nat} (h : capped a = capped b) (n : Nat) :
    capped (a * n) = capped (b * n) := by
  rcases Nat.eq_zero_or_pos n with rfl | hn
  · rfl
  have ha : a ≤ a * n := Nat.le_mul_of_pos_right a hn
  have hb : b ≤ b * n := Nat.le_mul_of_pos_right b hn
  rcases Nat.lt_or_ge a countCap with hlt | hge
  · have hab : a = b := by
      unfold capped at h
      omega
    rw [hab]
  · unfold capped at h ⊢
    omega

theorem lt_capped_iff {limit n : Nat} (h : limit < countCap) : limit < capped n ↔ limit < n := by
  unfold capped
  omega

/-- No statement falls into more units than it has properties, unless it has none. -/
theorem Statement.length_units_le (s : Statement) : s.units.length ≤ max 1 s.properties.length := by
  rcases s.untyped_or_typed with h | ⟨r, i, hr, hi⟩
  · rw [units_of_untyped h]
    split
    · exact Nat.le_max_left ..
    · rw [List.length_map]
      exact Nat.le_max_right ..
  · rw [length_units_of_typed hr hi]
    exact Nat.le_trans List.countP_le_length (Nat.le_max_right ..)

namespace Pattern

variable {denied : Bool} {ps : List Pattern}

theorem capped_countSum (h : ∀ p ∈ ps, capped (p.count denied) = capped (p.width denied))
    (total : Nat) :
    capped (countSum total ps denied) = capped (total + (ps.map (·.width denied)).sum) := by
  induction ps generalizing total with
  | nil => rfl
  | cons p ps ih =>
    obtain ⟨hp, hps⟩ := List.forall_mem_cons.1 h
    rw [countSum, ih hps, List.map_cons, List.sum_cons]
    have hsum : capped (addCapped total (p.count denied)) = capped (total + p.count denied) :=
      capped_capped _
    calc capped (addCapped total (p.count denied) + (ps.map (·.width denied)).sum)
        = capped (total + p.count denied + (ps.map (·.width denied)).sum) := capped_add_congr hsum _
      _ = capped (p.count denied + (total + (ps.map (·.width denied)).sum)) := by
        rw [Nat.add_comm total, Nat.add_assoc]
      _ = capped (p.width denied + (total + (ps.map (·.width denied)).sum)) := capped_add_congr hp _
      _ = capped (total + (p.width denied + (ps.map (·.width denied)).sum)) := by
        rw [Nat.add_left_comm]

theorem capped_countProduct (h : ∀ p ∈ ps, capped (p.count denied) = capped (p.width denied))
    (total : Nat) :
    capped (countProduct total ps denied) = capped (total * (ps.map (·.width denied)).prod) := by
  induction ps generalizing total with
  | nil => simp [countProduct]
  | cons p ps ih =>
    obtain ⟨hp, hps⟩ := List.forall_mem_cons.1 h
    rw [countProduct, ih hps, List.map_cons, List.prod_cons]
    have hproduct : capped (mulCapped total (p.count denied)) = capped (total * p.count denied) :=
      capped_capped _
    calc capped (mulCapped total (p.count denied) * (ps.map (·.width denied)).prod)
        = capped (total * p.count denied * (ps.map (·.width denied)).prod) :=
        capped_mul_congr hproduct _
      _ = capped (p.count denied * (total * (ps.map (·.width denied)).prod)) := by
        rw [Nat.mul_comm total, Nat.mul_assoc]
      _ = capped (p.width denied * (total * (ps.map (·.width denied)).prod)) :=
        capped_mul_congr hp _
      _ = capped (total * (p.width denied * (ps.map (·.width denied)).prod)) := by
        rw [Nat.mul_left_comm]

theorem width_combinations (ps : List Pattern) (denied : Bool) :
    (combinations [[]] ps denied).length = (ps.map (·.width denied)).prod := by
  rw [length_combinations, List.length_singleton, Nat.one_mul]

/-- The count is the number of conjunctions, up to the cap. -/
theorem capped_count (p : Pattern) (denied : Bool) :
    capped (p.count denied) = capped (p.width denied) := by
  induction p using Pattern.induction generalizing denied with
  | statement s =>
    rw [count, width, expand, Statement.expansionCount, Statement.expand]
    split
    · rw [List.length_map, Statement.length_units_withPolarity]
    · rfl
  | negation part ih => exact ih !denied
  | conjunction parts ih =>
    rw [count, width, expand]
    split
    · rw [capped_countSum fun p hp => ih p hp denied, length_alternatives, Nat.zero_add]
    · rw [capped_countProduct fun p hp => ih p hp denied, width_combinations, Nat.one_mul]
  | disjunction parts ih =>
    rw [count, width, expand]
    split
    · rw [capped_countProduct fun p hp => ih p hp denied, width_combinations, Nat.one_mul]
    · rw [capped_countSum fun p hp => ih p hp denied, length_alternatives, Nat.zero_add]

theorem countSum_le {total : Nat} (h : total ≤ countCap) : countSum total ps denied ≤ countCap := by
  induction ps generalizing total with
  | nil => exact h
  | cons p ps ih => exact ih (Nat.min_le_right ..)

theorem countProduct_le {total : Nat} (h : total ≤ countCap) :
    countProduct total ps denied ≤ countCap := by
  induction ps generalizing total with
  | nil => exact h
  | cons p ps ih => exact ih (Nat.min_le_right ..)

/-- The count stops at the cap, if no statement has more properties than that. -/
theorem count_le_countCap {p : Pattern} (h : ∀ s ∈ p.statements, s.properties.length ≤ countCap)
    (denied : Bool) : p.count denied ≤ countCap := by
  induction p using Pattern.induction generalizing denied with
  | statement s =>
    have hunits := s.length_units_le
    have hproperties := h s List.mem_cons_self
    have hcap : 1 ≤ countCap := by decide
    rw [count, Statement.expansionCount]
    split <;> omega
  | negation part ih => exact ih h !denied
  | conjunction parts ih =>
    rw [count]
    split
    · exact countSum_le (Nat.zero_le _)
    · exact countProduct_le (by decide)
  | disjunction parts ih =>
    rw [count]
    split
    · exact countProduct_le (by decide)
    · exact countSum_le (Nat.zero_le _)

theorem size_normalForm_le (p : Pattern) : p.normalForm.size ≤ p.width false := by
  have h := (Distinct.eraseDups_sublist ((p.expand false).map Distinct.ofList)).length_le
  rwa [List.length_map] at h

theorem capped_bound (p : Pattern) : capped p.bound = capped (p.width false) := p.capped_count false

/-- The bound is the number of conjunctions before equal ones collapse, up to the cap, wherever the
number of properties of a statement is one machine word. It is no smaller than the number of those
that are left. Under a limit below the cap a pattern is normalized exactly when it expands to no more
conjunctions than that; otherwise the bound is told. -/
theorem bound_exact (p : Pattern) :
    ((∀ s ∈ p.statements, s.properties.length ≤ countCap) →
      p.bound = min (p.width false) countCap) ∧
    (p.normalForm.size ≤ countCap → p.normalForm.size ≤ p.bound) ∧
    ∀ limit < countCap,
      (p.normalize limit = if limit < p.width false then .error (.tooManyConjunctions p.bound limit)
        else .ok p.normalForm) ∧
      ∀ form, p.normalize limit = .ok form → form.size ≤ limit := by
  have hbound := p.capped_bound
  have hsize := p.size_normalForm_le
  refine ⟨fun h => ?_, fun hword => ?_, fun limit hlimit => ?_⟩
  · rwa [capped_of_le (show p.bound ≤ countCap from count_le_countCap h false)] at hbound
  · unfold capped at hbound
    omega
  · have hiff : limit < p.bound ↔ limit < p.width false := by
      rw [← lt_capped_iff hlimit, hbound, lt_capped_iff hlimit]
    have hnormalize : p.normalize limit = if limit < p.width false then
        .error (.tooManyConjunctions p.bound limit) else .ok p.normalForm := by
      rw [normalize]
      exact if_congr hiff rfl rfl
    refine ⟨hnormalize, fun form hform => ?_⟩
    rw [hnormalize] at hform
    split at hform
    · cases hform
    · cases hform
      omega

/-- Two alternatives beside a denied statement of two units. -/
theorem bound_exact_acquaintances :
    let person : Statement := ⟨.named "x", .positive, [.label ⟨"person"⟩]⟩
    let company : Statement := ⟨.named "x", .positive, [.label ⟨"company"⟩]⟩
    let stranger : Statement := ⟨.named "x", .positive, [.neq (.named "y"), .neq (.named "z")]⟩
    let p : Pattern := .conjunction [.disjunction [.statement person, .statement company],
      .negation (.statement stranger)]
    (∀ s ∈ p.statements, s.properties.length ≤ countCap) ∧ p.normalForm.size ≤ countCap ∧
      3 < countCap ∧ 4 < countCap ∧ p.bound = 4 ∧ p.normalForm.size ≤ p.bound ∧
      p.normalize 3 = .error (.tooManyConjunctions 4 3) ∧
      p.normalize 4 = .ok p.normalForm ∧ p.normalForm.size ≤ 4 := by
  intro person company stranger p
  have hproperties : ∀ s ∈ p.statements, s.properties.length ≤ countCap := by decide
  have hword : p.normalForm.size ≤ countCap := by decide
  have hthree : 3 < countCap := by decide
  have hfour : 4 < countCap := by decide
  have hwidth : p.width false = 4 := by decide
  obtain ⟨hexact, hsize, hnormalize⟩ := bound_exact p
  have hbound : p.bound = 4 := by
    rw [hexact hproperties, hwidth]
    decide
  have herror : p.normalize 3 = .error (.tooManyConjunctions 4 3) := by
    rw [(hnormalize 3 hthree).1, hwidth, hbound]
    rfl
  have hok : p.normalize 4 = .ok p.normalForm := by
    rw [(hnormalize 4 hfour).1, hwidth]
    rfl
  exact ⟨hproperties, hword, hthree, hfour, hbound, hsize hword, herror, hok,
    (hnormalize 4 hfour).2 _ hok⟩

end Pattern

end GraphQuery
