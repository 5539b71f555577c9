import GraphQuery.Proofs.Pattern.Parts
import GraphQuery.Proofs.Statement.Matching

/-!
# Statements that a conjunction drops

A conjunction keeps the first of equal statements, and equality takes all generated variables for one.
What it drops is redundant when a renaming of variables that the conjunction does not mention turns it
into a statement that is kept. Variables that stand at one place of the dropped statement and nowhere
else can be renamed at will; those that are tied to other places have to agree with what they are
matched with.
-/

namespace GraphQuery.Conjunction

/-- That the conjunction mentions a variable of a statement, or the statement has it at two places. -/
def Ties (c : Conjunction) (s : Statement) (v : Variable) : Prop := v ∈ c.vars ∨ 2 ≤ s.slots.count v

instance (c : Conjunction) (s : Statement) (v : Variable) : Decidable (c.Ties s v) :=
  inferInstanceAs (Decidable (_ ∨ _))

/-- That a renaming turns a statement into another, whose variables and properties are compared exactly,
and leaves every variable of the conjunction as it is. -/
def Absorbs (c : Conjunction) (s t : Statement) : Prop :=
  ∃ f : Variable → Variable, (∀ v ∈ c.vars, f v = v) ∧ s.Matches (fun v w => f v = w) t

variable {c : Conjunction} {s t : Statement}

theorem absorbs_iff :
    c.Absorbs s t ↔ ∃ g : Variable → Variable, (∀ v ∈ c.vars, g v = v) ∧
      s.Matches (fun v w => c.Ties s v → g v = w) t := by
  constructor
  · rintro ⟨f, hfixed, hmatch⟩
    exact ⟨f, hfixed, hmatch.imp fun _ _ _ hvw _ => hvw⟩
  · rintro ⟨g, hfixed, hmatch⟩
    obtain ⟨ws, hws, hread⟩ := hmatch.exists_slots
    obtain ⟨f, hf, hslots⟩ := exists_map_of_forall₂ hws fun v hv => by
      have := not_or.1 hv
      omega
    refine ⟨f, fun v hv => ?_, hread _ hslots⟩
    rw [hf v (.inr (.inl hv)), hfixed v hv]

/-- Where no generated variable is tied, a shape in common is enough. -/
theorem absorbs_of_beq (h : (s == t) = true) (hs : s.Diverse)
    (hfree : ∀ v ∈ unnamed s.slots, ¬ c.Ties s v) : c.Absorbs s t := by
  refine absorbs_iff.2 ⟨id, fun _ _ => rfl, (Statement.matches_of_beq h hs).imp ?_⟩
  intro v hv w hvw hties
  cases hname : v.isNamed with
  | true => exact Variable.eq_of_alike hvw hname
  | false => exact absurd hties (hfree v (mem_unnamed.2 ⟨hv, hname⟩))

/-- What absorbs a statement implies it, for some values of the variables that it alone has. -/
theorem Absorbs.exists_holds {U : Type} {g : Graph U} {a : Variable → U} (h : c.Absorbs s t)
    (ht : t.Holds g a) : ∃ b : Variable → U, (∀ v ∈ c.vars, b v = a v) ∧ s.Holds g b := by
  obtain ⟨f, hfixed, hmatch⟩ := h
  exact ⟨a ∘ f, fun v hv => congrArg a (hfixed v hv), hmatch.holds ht⟩

/-- A statement that a conjunction drops is absorbed by one that it keeps exactly when it matches that
one with its tied variables renamed consistently and those of the conjunction not at all. This is so
whenever no generated variable is tied and no two properties have one shape, and then what is kept
implies what is dropped. -/
theorem dropped_absorbed (l : List Statement) (s : Statement) (hs : s ∈ l) :
    let c : Conjunction := .ofList l
    (∀ t ∈ c.toList, c.Absorbs s t ↔ ∃ g : Variable → Variable, (∀ v ∈ c.vars, g v = v) ∧
      s.Matches (fun v w => c.Ties s v → g v = w) t) ∧
    (s.Diverse → (∀ v ∈ unnamed s.slots, ¬ c.Ties s v) →
      ∃ t ∈ c.toList, (s == t) = true ∧ c.Absorbs s t) ∧
    ∀ t ∈ c.toList, c.Absorbs s t → ∀ (U : Type) (g : Graph U) (a : Variable → U),
      (∀ u ∈ c.toList, u.Holds g a) →
        ∃ b : Variable → U, (∀ v ∈ c.vars, b v = a v) ∧ s.Holds g b := by
  intro c
  refine ⟨fun t _ => absorbs_iff, ?_, ?_⟩
  · intro hdiverse hfree
    obtain ⟨t, ht, hst⟩ := Distinct.exists_eraseDups_beq hs
    exact ⟨t, ht, hst, absorbs_of_beq hst hdiverse hfree⟩
  · intro t ht habsorbs U g a hholds
    exact habsorbs.exists_holds (hholds t ht)

/-- A person who is mentioned twice, with another variable for the type each time. -/
theorem dropped_absorbed_person :
    let person (n : UInt64) : Statement :=
      ⟨.named "x", .positive, [.isa (.labelled (.generated n) ⟨"person"⟩) false]⟩
    let other : Statement := ⟨.named "x", .positive, [.neq (.named "y")]⟩
    let c : Conjunction := .ofList [person 0, other, person 1]
    person 1 ∈ [person 0, other, person 1] ∧ c.size = 2 ∧ (person 1).Diverse ∧
      (∀ v ∈ unnamed (person 1).slots, ¬ c.Ties (person 1) v) ∧
      ∃ t ∈ c.toList, (person 1 == t) = true ∧ c.Absorbs (person 1) t := by
  intro person other c
  have hmem : person 1 ∈ [person 0, other, person 1] := by simp
  have hdiverse : (person 1).Diverse :=
    Statement.diverse_iff.2 ⟨List.pairwise_singleton .., by simp [person, Property.Diverse]⟩
  have hfree : ∀ v ∈ unnamed (person 1).slots, ¬ c.Ties (person 1) v := by decide
  exact ⟨hmem, by decide, hdiverse, hfree, (dropped_absorbed _ _ hmem).2.1 hdiverse hfree⟩

/-- The label of a type is dropped although another statement mentions the type, since the label of
another type is kept. -/
theorem not_dropped_absorbed :
    let person (n : UInt64) : Statement := ⟨.generated n, .positive, [.label ⟨"person"⟩]⟩
    let other : Statement := ⟨.named "x", .positive, [.neq (.generated 1)]⟩
    let c : Conjunction := .ofList [person 0, other, person 1]
    person 1 ∈ [person 0, other, person 1] ∧ c.size = 2 ∧
      ¬ ∃ t ∈ c.toList, c.Absorbs (person 1) t := by
  intro person other c
  refine ⟨by simp, by decide, ?_⟩
  rintro ⟨t, ht, f, hfixed, hmatch⟩
  have hvar : f (.generated 1) = t.var := (Statement.matches_iff.1 hmatch).1
  have hmentioned : Variable.generated 1 ∈ c.vars := by decide
  rw [hfixed _ hmentioned] at hvar
  have hkept : ∀ u ∈ c.toList, u.var ≠ .generated 1 := by decide
  exact hkept t ht hvar.symm

end GraphQuery.Conjunction
