import Mathlib.Algebra.Group.Nat.Defs
import Mathlib.Data.List.Forall2

/-!
# Sequences in lexicographic order

An enumeration of sequences in lexicographic order lets the last member vary fastest. When each
member is a digit below a size of its own, a sequence stands at the place that its digits write down,
in the mixed radix of the sizes.
-/

namespace GraphQuery

/-- The place of a sequence of digits among all that stay below the sizes. -/
def mixedRadix : List Nat → List Nat → Nat
  | _ :: sizes, digit :: digits => digit * sizes.prod + mixedRadix sizes digits
  | _, _ => 0

variable {sizes digits digits' : List Nat}

theorem mixedRadix_lt (h : List.Forall₂ (· < ·) digits sizes) :
    mixedRadix sizes digits < sizes.prod := by
  induction h with
  | nil => exact Nat.one_pos
  | @cons digit size digits sizes hdigit _ ih =>
    calc digit * sizes.prod + mixedRadix sizes digits
        < digit * sizes.prod + sizes.prod := Nat.add_lt_add_left ih _
      _ = (digit + 1) * sizes.prod := (Nat.succ_mul ..).symm
      _ ≤ size * sizes.prod := Nat.mul_le_mul_right _ hdigit
      _ = (size :: sizes).prod := List.prod_cons.symm

/-- The first digit counts for more than all digits after it. -/
theorem mul_add_lt_mul_add {a b m n p : Nat} (h : a < b) (hm : m < p) :
    a * p + m < b * p + n :=
  calc a * p + m < a * p + p := Nat.add_lt_add_left hm _
    _ = (a + 1) * p := (Nat.succ_mul ..).symm
    _ ≤ b * p := Nat.mul_le_mul_right _ h
    _ ≤ b * p + n := Nat.le_add_right ..

/-- Places ascend with the sequences. -/
theorem mixedRadix_lt_mixedRadix_iff (h : List.Forall₂ (· < ·) digits sizes)
    (h' : List.Forall₂ (· < ·) digits' sizes) :
    mixedRadix sizes digits < mixedRadix sizes digits' ↔ digits < digits' := by
  induction h generalizing digits' with
  | nil =>
    cases h'
    exact iff_of_false (Nat.lt_irrefl _) (List.lt_irrefl _)
  | @cons digit size digits sizes _ hdigits ih =>
    cases h' with
    | @cons digit' _ digits' _ _ hdigits' =>
      rw [mixedRadix, mixedRadix, List.cons_lt_cons_iff, ← ih hdigits']
      rcases Nat.lt_trichotomy digit digit' with hlt | rfl | hgt
      · exact iff_of_true (mul_add_lt_mul_add hlt (mixedRadix_lt hdigits)) (.inl hlt)
      · simp
      · have hplace := mul_add_lt_mul_add (n := mixedRadix sizes digits) hgt (mixedRadix_lt hdigits')
        exact iff_of_false (Nat.lt_asymm hplace)
          fun h => h.elim (Nat.lt_asymm hgt) fun h => Nat.ne_of_gt hgt h.1

theorem exists_digits {place : Nat} (h : place < sizes.prod) :
    ∃ digits, List.Forall₂ (· < ·) digits sizes ∧ mixedRadix sizes digits = place := by
  induction sizes generalizing place with
  | nil =>
    rw [List.prod_nil, Nat.lt_one_iff] at h
    exact ⟨[], .nil, h.symm⟩
  | cons size sizes ih =>
    rw [List.prod_cons] at h
    have hpos : 0 < sizes.prod := Nat.pos_of_lt_mul_left h
    obtain ⟨digits, hdigits, hplace⟩ := ih (Nat.mod_lt place hpos)
    refine ⟨place / sizes.prod :: digits, .cons (Nat.div_lt_of_lt_mul ?_) hdigits, ?_⟩
    · rwa [Nat.mul_comm]
    · rw [mixedRadix, hplace, Nat.mul_comm, Nat.div_add_mod]

end GraphQuery
