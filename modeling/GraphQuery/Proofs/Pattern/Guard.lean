import GraphQuery.Proofs.Pattern.Bound

/-!
# Lists on the way to an expansion

A pattern is expanded part by part, and the parts of its parts before. Every list on the way is
completed by what it is combined with, in its own call and in the calls around it, so as many times
its length count towards the whole expansion. A limit on the expansion therefore limits all lists on
the way that are completed at least once. One that is combined with nothing is not completed and not
limited.
-/

namespace GraphQuery.Pattern

/-- The patterns that a conjunction or disjunction consists of. -/
def parts : Pattern → List Pattern
  | conjunction parts | disjunction parts => parts
  | statement _ | negation _ => []

/-- Whether an asserted or denied pattern expands to the combinations of its parts, rather than to
their alternatives. -/
def combines : Pattern → Bool → Bool
  | conjunction _, denied => !denied
  | disjunction _, denied => denied
  | statement _, _ | negation _, _ => false

/-- The list that has been built after the first `n` parts of an asserted or denied pattern. -/
def accumulated (p : Pattern) (denied : Bool) (n : Nat) : List (List Statement) :=
  if p.combines denied then combinations [[]] (p.parts.take n) denied
  else alternatives (p.parts.take n) denied

/-- How many times what has been built after `n` parts is completed by the parts that are left. -/
def remaining (p : Pattern) (denied : Bool) (n : Nat) : Nat :=
  if p.combines denied then ((p.parts.drop n).map (·.width denied)).prod else 1

/-- That expanding an asserted or denied pattern takes the expansion of another one, which is
combined with `k` others on the way. -/
inductive Reaches : Pattern → Bool → Nat → Pattern → Bool → Prop
  | here (p : Pattern) (denied : Bool) : Reaches p denied 1 p denied
  | negation {part q : Pattern} {denied e : Bool} {k : Nat} :
    Reaches part (!denied) k q e → Reaches (.negation part) denied k q e
  | alternative {p part q : Pattern} {denied e : Bool} {k : Nat} :
    p.combines denied = false → part ∈ p.parts → Reaches part denied k q e → Reaches p denied k q e
  | factor {p part q : Pattern} {denied e : Bool} {k : Nat} (front back : List Pattern) :
    p.combines denied = true → p.parts = front ++ part :: back → Reaches part denied k q e →
      Reaches p denied (((front ++ back).map (·.width denied)).prod * k) q e

variable {p q : Pattern} {denied e : Bool} {k limit : Nat}

theorem width_of_combines (h : p.combines denied = true) :
    p.width denied = (p.parts.map (·.width denied)).prod := by
  cases p with
  | statement => cases h
  | negation => cases h
  | conjunction parts =>
    have hdenied : denied = false := by simpa [combines] using h
    rw [hdenied, width, expand, if_neg Bool.false_ne_true, width_combinations, Pattern.parts]
  | disjunction parts =>
    have hdenied : denied = true := h
    rw [hdenied, width, expand, if_pos rfl, width_combinations, Pattern.parts]

theorem sum_le_width (h : p.combines denied = false) :
    (p.parts.map (·.width denied)).sum ≤ p.width denied := by
  cases p with
  | statement => exact Nat.zero_le _
  | negation => exact Nat.zero_le _
  | conjunction parts =>
    have hdenied : denied = true := by simpa [combines] using h
    refine Nat.le_of_eq ?_
    rw [hdenied, width, expand, if_pos rfl, length_alternatives, Pattern.parts]
  | disjunction parts =>
    have hdenied : denied = false := h
    refine Nat.le_of_eq ?_
    rw [hdenied, width, expand, if_neg Bool.false_ne_true, length_alternatives, Pattern.parts]

/-- What has been built counts as often as it is completed. -/
theorem accumulated_mul_remaining_le (p : Pattern) (denied : Bool) (n : Nat) :
    (p.accumulated denied n).length * p.remaining denied n ≤ p.width denied := by
  have hsplit : p.parts.map (·.width denied) =
      (p.parts.take n).map (·.width denied) ++ (p.parts.drop n).map (·.width denied) := by
    rw [← List.map_append, List.take_append_drop]
  rw [accumulated, remaining]
  split
  · rename_i hcombines
    refine Nat.le_of_eq ?_
    rw [width_combinations, width_of_combines hcombines, hsplit, List.prod_append]
  · rename_i hcombines
    rw [Bool.not_eq_true] at hcombines
    have hsum := sum_le_width hcombines
    rw [hsplit, List.sum_append] at hsum
    rw [length_alternatives, Nat.mul_one]
    exact Nat.le_trans (Nat.le_add_right ..) hsum

/-- What is expanded on the way counts as often as it is combined. -/
theorem Reaches.mul_width_le (h : p.Reaches denied k q e) : k * q.width e ≤ p.width denied := by
  induction h with
  | here p denied => exact Nat.le_of_eq (Nat.one_mul _)
  | negation _ ih => exact ih
  | @alternative p part q denied e k hcombines hpart _ ih =>
    obtain ⟨front, back, hparts⟩ := List.append_of_mem hpart
    have hsum := sum_le_width hcombines
    rw [hparts, List.map_append, List.map_cons, List.sum_append, List.sum_cons] at hsum
    omega
  | @factor p part q denied e k front back hcombines hparts _ ih =>
    calc ((front ++ back).map (·.width denied)).prod * k * q.width e
      _ = ((front ++ back).map (·.width denied)).prod * (k * q.width e) := Nat.mul_assoc ..
      _ ≤ ((front ++ back).map (·.width denied)).prod * part.width denied :=
        Nat.mul_le_mul_left _ ih
      _ = p.width denied := by
        rw [width_of_combines hcombines, hparts, List.map_append, List.map_append, List.map_cons,
          List.prod_append, List.prod_append, List.prod_cons, Nat.mul_assoc,
          Nat.mul_comm _ (part.width denied)]

/-- Where the bound of a pattern is within a limit below the cap, so is every list on the way of its
expansion, as many times as it is completed. Hence its length is, unless a part that it is combined
with expands to nothing. -/
theorem accumulated_within (hlimit : limit < countCap) (hbound : p.bound ≤ limit)
    (h : p.Reaches false k q e) (n : Nat) :
    (q.accumulated e n).length * (q.remaining e n * k) ≤ limit ∧
      (q.remaining e n * k ≠ 0 → (q.accumulated e n).length ≤ limit) := by
  have hwidth : p.width false ≤ limit := by
    have hcapped := p.capped_bound
    unfold capped at hcapped
    omega
  have hcompleted : (q.accumulated e n).length * (q.remaining e n * k) ≤ limit :=
    calc (q.accumulated e n).length * (q.remaining e n * k)
      _ = k * ((q.accumulated e n).length * q.remaining e n) := by
        rw [← Nat.mul_assoc, Nat.mul_comm]
      _ ≤ k * q.width e := Nat.mul_le_mul_left _ (q.accumulated_mul_remaining_le e n)
      _ ≤ p.width false := h.mul_width_le
      _ ≤ limit := hwidth
  refine ⟨hcompleted, fun hne => ?_⟩
  exact Nat.le_trans (Nat.le_mul_of_pos_right _ (Nat.pos_of_ne_zero hne)) hcompleted

/-- Two alternatives that are combined with a denial of two units. -/
theorem accumulated_within_acquaintances :
    let person : Statement := ⟨.named "x", .positive, [.label ⟨"person"⟩]⟩
    let company : Statement := ⟨.named "x", .positive, [.label ⟨"company"⟩]⟩
    let stranger : Statement := ⟨.named "x", .positive, [.neq (.named "y"), .neq (.named "z")]⟩
    let kinds : Pattern := .disjunction [.statement person, .statement company]
    let p : Pattern := .conjunction [kinds, .negation (.statement stranger)]
    4 < countCap ∧ p.bound ≤ 4 ∧ p.Reaches false 2 kinds false ∧ kinds.remaining false 2 * 2 ≠ 0 ∧
      (kinds.accumulated false 2).length * (kinds.remaining false 2 * 2) ≤ 4 ∧
      (kinds.accumulated false 2).length ≤ 4 := by
  intro person company stranger kinds p
  have hlimit : 4 < countCap := by decide
  have hbound : p.bound ≤ 4 := by decide
  have hreached : p.Reaches false 2 kinds false :=
    .factor [] [.negation (.statement stranger)] rfl rfl (.here kinds false)
  have hne : kinds.remaining false 2 * 2 ≠ 0 := by decide
  have h := accumulated_within hlimit hbound hreached 2
  exact ⟨hlimit, hbound, hreached, hne, h.1, h.2 hne⟩

/-- Two pairs of alternatives and one of nothing: nothing is expanded to, but four conjunctions are
built before. -/
theorem not_accumulated_le_limit :
    ¬ ∀ (p : Pattern) (limit : Nat), p.bound ≤ limit → ∀ (k : Nat) (q : Pattern) (e : Bool),
      p.Reaches false k q e → ∀ n : Nat, (q.accumulated e n).length ≤ max 1 limit := by
  intro h
  let label (name : String) : Pattern := .statement ⟨.named "x", .positive, [.label ⟨name⟩]⟩
  let p : Pattern := .conjunction [.disjunction [label "a", label "b"],
    .disjunction [label "c", label "d"], .disjunction []]
  have hfour : (p.accumulated false 2).length = 4 := by decide
  have hbound : p.bound ≤ 3 := by decide
  have hle := h p 3 hbound 1 p false (.here p false) 2
  omega

end GraphQuery.Pattern
