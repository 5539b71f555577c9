import GraphQuery.Pattern.Validation
import GraphQuery.Proofs.Pattern.Expansion
import GraphQuery.Proofs.Pattern.Parts
import GraphQuery.Proofs.Statement.Splitting

/-!
# Normal forms of normal forms

A unit is its own unit, a relation and its type together no less than a property by itself. So the
statements of a normal form expand to themselves, and a normal form that is read as a pattern is
expanded to just the conjunctions that it has, no two of them equal. Normalizing it changes nothing,
the order included.
-/

namespace GraphQuery

namespace Statement

/-- That a statement is neither split nor turned around when it is asserted. -/
def Settled (s : Statement) : Prop := s.expand false = [[s]]

variable {s u : Statement}

theorem units_of_length_le_one (h : s.properties.length ≤ 1) : s.units = [s] := by
  obtain ⟨_, _, _⟩ := s
  rw [units, if_pos h]
  rfl

/-- A unit falls apart no further. -/
theorem units_of_mem_units (h : u ∈ s.units) : u.units = [u] := by
  rcases s.untyped_or_typed with huntyped | ⟨r, i, hr, hi⟩
  · rw [units_of_untyped huntyped] at h
    split at h
    · rename_i hle
      obtain rfl := List.mem_singleton.1 h
      exact units_of_length_le_one hle
    · obtain ⟨p, -, rfl⟩ := List.mem_map.1 h
      exact units_of_length_le_one Nat.le.refl
  · rcases (mem_units_of_typed hr hi).1 h with rfl | ⟨p, -, -, rfl⟩
    -- A relation in front of its type takes it up again.
    · have hrkind := (mem_properties_of_property? hr).2
      have hikind := (mem_properties_of_property? hi).2
      cases r <;> cases hrkind
      cases i <;> cases hikind
      rfl
    · exact units_of_length_le_one Nat.le.refl

/-- A denial is settled when it is its own only unit. -/
theorem settled_iff_of_negative (h : s.polarity = .negative) : s.Settled ↔ s.units = [s] := by
  have hexpand : s.expand false = s.units.map ([·]) := by
    obtain ⟨_, _, _⟩ := s
    cases h
    rfl
  rw [Settled, hexpand]
  constructor
  · intro hmap
    have hflatten := congrArg List.flatten hmap
    simpa [← List.flatMap_def] using hflatten
  · intro hunits
    rw [hunits]
    rfl

theorem settled_of_mem_expand {denied : Bool} {c : List Statement} (hc : c ∈ s.expand denied)
    (hu : u ∈ c) : u.Settled := by
  rw [expand] at hc
  split at hc
  · obtain ⟨w, hw, rfl⟩ := List.mem_map.1 hc
    obtain rfl := List.mem_singleton.1 hu
    exact (settled_iff_of_negative (polarity_eq_of_mem_units hw)).2 (units_of_mem_units hw)
  · obtain rfl := List.mem_singleton.1 hc
    obtain rfl := List.mem_singleton.1 hu
    rfl

end Statement

namespace NormalForm

/-- A normal form as a pattern. -/
def toPattern (f : NormalForm) : Pattern :=
  .disjunction (f.toList.map fun c => .conjunction (c.toList.map .statement))

theorem alternatives_conjunctions {cs : List Conjunction}
    (h : ∀ c ∈ cs, ∀ s ∈ c.toList, s.Settled) :
    Pattern.alternatives (cs.map fun c => .conjunction (c.toList.map .statement)) false =
      cs.map (·.toList) := by
  induction cs with
  | nil => rfl
  | cons c cs ih =>
    obtain ⟨hc, hcs⟩ := List.forall_mem_cons.1 h
    have hexpand : Pattern.expand (.conjunction (c.toList.map .statement)) false = [c.toList] := by
      rw [Pattern.expand, if_neg Bool.false_ne_true]
      exact Pattern.combinations_statements hc []
    rw [List.map_cons, Pattern.alternatives, hexpand, ih hcs]
    rfl

theorem normalForm_toPattern {f : NormalForm} (h : ∀ c ∈ f.toList, ∀ s ∈ c.toList, s.Settled) :
    f.toPattern.normalForm = f := by
  have hexpand : f.toPattern.expand false = f.toList.map (·.toList) := by
    rw [toPattern, Pattern.expand, if_neg Bool.false_ne_true, alternatives_conjunctions h]
  have hlists : (f.toPattern.expand false).map .ofList = f.toList := by
    rw [hexpand, List.map_map]
    exact List.map_id'' Distinct.ofList_toList _
  rw [Pattern.normalForm, hlists, Distinct.ofList_toList]

theorem checked_eq_ok {f : NormalForm} (h : ∀ c ∈ f.toList, ∀ s ∈ c.negative, s.units = [s]) :
    f.checked = .ok f := by
  have hnone : f.compoundDenial? = none := by
    rw [compoundDenial?, List.findSome?_eq_none_iff]
    intro c hc
    rw [List.find?_eq_none]
    intro s hs
    simp [h c hc s hs]
  rw [checked, hnone]

end NormalForm

namespace Pattern

variable {p : Pattern}

theorem settled_of_mem_normalForm {c : Conjunction} {s : Statement} (hc : c ∈ p.normalForm.toList)
    (hs : s ∈ c.toList) : s.Settled := by
  obtain ⟨_, _, _, _, hd, hs⟩ := exists_statement_of_mem_normalForm hc hs
  exact Statement.settled_of_mem_expand hd hs

/-- What a pattern is normalized to passes the check on normal forms, each of its denials being its
own only unit. Read as a pattern again, it is normalized to the same conjunctions of the same
statements in the same order. -/
theorem normalForm_fixpoint (p : Pattern) :
    p.normalForm.checked = .ok p.normalForm ∧
    (∀ c ∈ p.normalForm.toList, ∀ s ∈ c.negative, s.units = [s]) ∧
    p.normalForm.toPattern.normalForm = p.normalForm := by
  have hsettled : ∀ c ∈ p.normalForm.toList, ∀ s ∈ c.toList, s.Settled := fun _ hc _ hs =>
    settled_of_mem_normalForm hc hs
  have hunits : ∀ c ∈ p.normalForm.toList, ∀ s ∈ c.negative, s.units = [s] := by
    intro c hc s hs
    obtain ⟨hs, hnegative⟩ := List.mem_filter.1 hs
    exact (Statement.settled_iff_of_negative (by simpa [Statement.isNegative] using hnegative)).1
      (hsettled c hc s hs)
  exact ⟨NormalForm.checked_eq_ok hunits, hunits, NormalForm.normalForm_toPattern hsettled⟩

/-- A denied marriage that gives its type twice: the players keep the first type, and the second is
no unit. -/
theorem normalForm_fixpoint_wedding :
    let marriage : Property := .isa (.labelled (.generated 0) ⟨"marriage"⟩) false
    let players : Property := .relation [⟨none, .named "x"⟩, ⟨none, .named "y"⟩]
    let p : Pattern := .negation (.statement
      ⟨.named "r", .positive, [marriage, .neq (.named "s"), players, marriage]⟩)
    let c : Conjunction := .ofList [⟨.named "r", .negative, [players, marriage]⟩]
    let s : Statement := ⟨.named "r", .negative, [players, marriage]⟩
    c ∈ p.normalForm.toList ∧ s ∈ c.negative ∧ s.units = [s] ∧ p.normalForm.size = 2 ∧
      p.normalForm.toPattern.normalForm = p.normalForm := by
  intro marriage players p c s
  have hc : c ∈ p.normalForm.toList := List.mem_cons_of_mem _ List.mem_cons_self
  have hs : s ∈ c.negative := List.mem_cons_self
  obtain ⟨-, hunits, hfixpoint⟩ := normalForm_fixpoint p
  exact ⟨hc, hs, hunits c hc s hs, by decide, hfixpoint⟩

end Pattern

end GraphQuery
