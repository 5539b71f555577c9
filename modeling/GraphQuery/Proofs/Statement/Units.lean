import GraphQuery.Statement.Units

/-!
# What units keep

A statement falls apart into units of the same variable and polarity. A relation is in one unit with
its first type; the types that it may state after that are in none. All other properties are kept,
so the units together have the properties of the statement if no relation has two types.
-/

namespace GraphQuery

/-- If the statement is about a relation, it gives at most one type. -/
def Statement.TypedOnce (s : Statement) : Prop :=
  s.hasKind .relation = true → s.properties.countP (·.kind = .isa) ≤ 1

instance (s : Statement) : Decidable s.TypedOnce :=
  inferInstanceAs (Decidable (s.hasKind .relation = true → _))

/-- The types that a relation states after its first. -/
def Statement.furtherTypes (s : Statement) : List Property :=
  if s.hasKind .relation then (s.properties.filter (·.kind = .isa)).tail else []

namespace Property

theorem flatten_relationUnits (pending : Option Property) (ps : List Property) :
    (relationUnits pending ps).flatten.Perm
      (ps.filter (·.kind ≠ .isa) ++
        if ps.any (·.kind = .relation) then pending.toList else []) := by
  induction ps generalizing pending with
  | nil => simp [relationUnits]
  | cons p ps ih =>
    cases p with
    | isa type direct => simpa [relationUnits, kind] using ih pending
    | relation players =>
      have hrest : (relationUnits none ps).flatten.Perm (ps.filter (·.kind ≠ .isa)) := by
        simpa using ih none
      simpa [relationUnits, kind] using (hrest.append_left pending.toList).trans
        List.perm_append_comm
    | sub | label | id | dataType | has | value | neq =>
      simpa [relationUnits, kind] using ih pending

end Property

namespace Statement

theorem var_eq_of_mem_units {s u : Statement} (h : u ∈ s.units) : u.var = s.var := by
  obtain ⟨ps, -, rfl⟩ := List.mem_map.1 h
  rfl

theorem polarity_eq_of_mem_units {s u : Statement} (h : u ∈ s.units) :
    u.polarity = s.polarity := by
  obtain ⟨ps, -, rfl⟩ := List.mem_map.1 h
  rfl

/-- Of what kind a statement is makes no difference to how it falls apart. -/
theorem units_withPolarity (s : Statement) (polarity : Polarity) :
    (s.withPolarity polarity).units = s.units.map (·.withPolarity polarity) := by
  rw [units, units, List.map_map]
  rfl

theorem length_units_withPolarity (s : Statement) (polarity : Polarity) :
    (s.withPolarity polarity).units.length = s.units.length := by
  rw [units_withPolarity, List.length_map]

theorem typedOnce_iff {s : Statement} : s.TypedOnce ↔ s.furtherTypes = [] := by
  rw [TypedOnce, furtherTypes, List.countP_eq_length_filter]
  by_cases hrelation : s.hasKind .relation = true
  · simp [hrelation, ← List.length_eq_zero_iff, Nat.sub_eq_zero_iff_le]
  · simp [hrelation]

/-- The first property of a kind and those after it. -/
theorem property?_append_tail (s : Statement) (kind : PropertyKind) :
    (s.property? kind).toList ++ (s.properties.filter (·.kind = kind)).tail =
      s.properties.filter (·.kind = kind) := by
  rw [property?, ← List.head?_filter]
  cases s.properties.filter (·.kind = kind) <;> rfl

/-- The further types of a relation are what its units lack. -/
theorem flatMap_units_append_furtherTypes (s : Statement) :
    (s.units.flatMap (·.properties) ++ s.furtherTypes).Perm s.properties := by
  rw [units, furtherTypes, List.flatMap_map, List.flatMap_def, List.map_id']
  split
  · rename_i hlength
    have htail : (s.properties.filter (·.kind = .isa)).tail = [] := by
      have hfilter := List.length_filter_le (fun p : Property => p.kind = .isa) s.properties
      rw [← List.length_eq_zero_iff, List.length_tail]
      omega
    simp [htail]
  · split
    · rename_i hrelation
      have hany : (s.properties.any (·.kind = .relation)) = true := hrelation
      have hflatten := Property.flatten_relationUnits (s.property? .isa) s.properties
      rw [if_pos hany] at hflatten
      refine (hflatten.append_right _).trans ?_
      rw [List.append_assoc, property?_append_tail]
      refine List.perm_append_comm.trans ?_
      simpa using List.filter_append_perm (fun p : Property => decide (p.kind = .isa)) s.properties
    · simp [← List.flatMap_def]

/-- The units of a statement have its properties and no others. -/
theorem flatMap_units {s : Statement} (h : s.TypedOnce) :
    (s.units.flatMap (·.properties)).Perm s.properties := by
  simpa [typedOnce_iff.1 h] using s.flatMap_units_append_furtherTypes

/-- A statement falls apart into units of its own variable and polarity. Their properties are those
of the statement but for the further types of a relation, and so nothing is lost just where a
relation has at most one type. -/
theorem units_conserve (s : Statement) :
    (s.units.flatMap (·.properties) ++ s.furtherTypes).Perm s.properties ∧
      ((s.units.flatMap (·.properties)).Perm s.properties ↔ s.TypedOnce) ∧
        ∀ u ∈ s.units, u.var = s.var ∧ u.polarity = s.polarity := by
  refine ⟨s.flatMap_units_append_furtherTypes, ⟨fun h => ?_, flatMap_units⟩, fun u hu =>
    ⟨var_eq_of_mem_units hu, polarity_eq_of_mem_units hu⟩⟩
  have hlength := (s.flatMap_units_append_furtherTypes.trans h.symm).length_eq
  rw [List.length_append] at hlength
  rw [typedOnce_iff, ← List.length_eq_zero_iff]
  omega

/-- Of a marriage that is a contract as well, the units keep that it is a marriage only. -/
theorem not_units_conserve_marriage :
    let players : Property := .relation [⟨some ⟨"wife"⟩, .named "x"⟩]
    let marriage : Property := .isa (.labelled (.generated 0) ⟨"marriage"⟩) false
    let contract : Property := .isa (.labelled (.generated 1) ⟨"contract"⟩) false
    let s : Statement := ⟨.named "r", .positive, [players, marriage, contract]⟩
    s.units.flatMap (·.properties) = [players, marriage] ∧
      ¬ (s.units.flatMap (·.properties)).Perm s.properties := by
  refine ⟨rfl, fun h => ?_⟩
  cases h.length_eq

end Statement

end GraphQuery
