import GraphQuery.Proofs.Collection.Cover
import GraphQuery.Proofs.Statement.Equality
import GraphQuery.Proofs.Statement.Units

/-!
# Equal statements that split differently

Equality of statements ignores the order of properties and how often one occurs. Units do not: the
first relation takes the first type, and each further property is a unit of its own. Equal statements
have equal units, and equally many, exactly when the order and the repetitions that units see agree.
-/

namespace GraphQuery

/-- The statements have no relation with a type, or the relations that take the types are equal, as are
the types, there are equally many types, and the relation recurs in both or in neither. -/
def Statement.SplitsLike (s t : Statement) : Prop :=
  ∀ r ∈ s.property? .relation, ∀ i ∈ s.property? .isa,
    ∀ r' ∈ t.property? .relation, ∀ i' ∈ t.property? .isa,
      (r == r') = true ∧ (i == i') = true ∧
        s.properties.countP (·.kind = .isa) = t.properties.countP (·.kind = .isa) ∧
        (1 < s.properties.countP (· == r) ↔ 1 < t.properties.countP (· == r'))

instance (s t : Statement) : Decidable (s.SplitsLike t) :=
  inferInstanceAs (Decidable (∀ r ∈ s.property? .relation, _))

namespace Property

theorem relationUnits_cons {pending : Option Property} {p : Property} (ps : List Property)
    (hisa : p.kind ≠ .isa) (hrelation : p.kind ≠ .relation) :
    relationUnits pending (p :: ps) = [p] :: relationUnits pending ps := by
  cases p with
  | isa => exact absurd rfl hisa
  | relation => exact absurd rfl hrelation
  | _ => rfl

theorem relationUnits_none (ps : List Property) :
    relationUnits none ps = (ps.filter (·.kind ≠ .isa)).map ([·]) := by
  induction ps with
  | nil => rfl
  | cons p ps ih =>
    by_cases hisa : p.kind = .isa
    · cases p <;> cases hisa
      simpa [relationUnits, kind] using ih
    · by_cases hrelation : p.kind = .relation
      · cases p <;> cases hrelation
        simp [relationUnits, kind, ih]
      · simp [relationUnits_cons ps hisa hrelation, hisa, ih]

/-- The first relation takes the type, and everything else but types is a unit of its own. -/
theorem mem_relationUnits_some {ps unit : List Property} {r i : Property}
    (hr : ps.find? (·.kind = .relation) = some r) :
    unit ∈ relationUnits (some i) ps ↔ unit = [r, i] ∨
      ∃ p ∈ ps.eraseP (·.kind = .relation), p.kind ≠ .isa ∧ unit = [p] := by
  induction ps with
  | nil => cases hr
  | cons p ps ih =>
    by_cases hrelation : p.kind = .relation
    · obtain rfl : p = r := by simpa [hrelation] using hr
      cases p <;> cases hrelation
      have hrest : unit ∈ relationUnits none ps ↔ ∃ q ∈ ps, q.kind ≠ .isa ∧ unit = [q] := by
        rw [relationUnits_none, List.mem_map]
        simp only [List.mem_filter, decide_eq_true_eq, and_assoc, @eq_comm _ unit]
      simp [relationUnits, kind, hrest]
    · have hr' : ps.find? (·.kind = .relation) = some r := by simpa [hrelation] using hr
      by_cases hisa : p.kind = .isa
      · cases p <;> cases hisa
        simp [relationUnits, kind, ih hr']
      · simp [relationUnits_cons ps hisa hrelation, hisa, hrelation, ih hr', or_left_comm]

theorem length_relationUnits (pending : Option Property) (ps : List Property) :
    (relationUnits pending ps).length = ps.countP (·.kind ≠ .isa) := by
  induction ps generalizing pending with
  | nil => rfl
  | cons p ps ih =>
    by_cases hisa : p.kind = .isa
    · cases p <;> cases hisa
      simpa [relationUnits, kind] using ih pending
    · by_cases hrelation : p.kind = .relation
      · cases p <;> cases hrelation
        simpa [relationUnits, kind] using ih none
      · simpa [relationUnits_cons ps hisa hrelation, hisa] using ih pending

/-- Without its first relation a list has the same properties up to `==`, save that relation unless it
recurs. -/
theorem exists_beq_eraseP_iff {ps : List Property} {p r : Property}
    (hr : ps.find? (·.kind = .relation) = some r) :
    (∃ q ∈ ps.eraseP (·.kind = .relation), (p == q) = true) ↔
      (∃ q ∈ ps, (p == q) = true) ∧ ((p == r) = true → 1 < ps.countP (· == r)) := by
  obtain ⟨hkind, front, back, rfl, hfront⟩ := List.find?_eq_some_iff_append.1 hr
  have herase : (front ++ r :: back).eraseP (·.kind = .relation) = front ++ back := by
    rw [List.eraseP_append_right _ (by simpa using hfront)]
    simp [hkind]
  have hcount : (front ++ r :: back).countP (· == r) = (front ++ back).countP (· == r) + 1 := by
    simp [List.countP_append, Nat.add_assoc]
  rw [herase, hcount]
  constructor
  · rintro ⟨q, hq, hpq⟩
    refine ⟨⟨q, List.mem_append.2 ((List.mem_append.1 hq).imp_right (List.mem_cons_of_mem r)), hpq⟩, ?_⟩
    intro hpr
    have hpos : 0 < (front ++ back).countP (· == r) :=
      List.countP_pos_iff.2 ⟨q, hq, BEq.trans (BEq.symm hpq) hpr⟩
    omega
  · rintro ⟨⟨q, hq, hpq⟩, hrecurs⟩
    rcases List.mem_append.1 hq with hq | hq
    · exact ⟨q, List.mem_append_left _ hq, hpq⟩
    · rcases List.mem_cons.1 hq with rfl | hq
      · have hpos : 0 < (front ++ back).countP (· == q) := by
          have := hrecurs hpq
          omega
        obtain ⟨q', hq', hqq'⟩ := List.countP_pos_iff.1 hpos
        exact ⟨q', hq', BEq.trans hpq (BEq.symm hqq')⟩
      · exact ⟨q, List.mem_append_right _ hq, hpq⟩

end Property

namespace Statement

variable {s t : Statement}

theorem mem_properties_of_property? {kind : PropertyKind} {p : Property}
    (h : s.property? kind = some p) : p ∈ s.properties ∧ p.kind = kind := by
  refine ⟨List.mem_of_find?_eq_some h, ?_⟩
  simpa using List.find?_some h

theorem covers_properties_of_beq (h : (s == t) = true) :
    Covers (fun p q => (p == q) = true) s.properties t.properties :=
  (Statement.beq_iff.1 h).2.2.2

theorem property?_isSome_of_beq (h : (s == t) = true) (kind : PropertyKind) :
    (s.property? kind).isSome = (t.property? kind).isSome := by
  have hsome {s t : Statement} (h : (s == t) = true) (hs : (s.property? kind).isSome = true) :
      (t.property? kind).isSome = true := by
    obtain ⟨p, hp⟩ := Option.isSome_iff_exists.1 hs
    obtain ⟨hmem, hkind⟩ := mem_properties_of_property? hp
    obtain ⟨q, hq, hpq⟩ := (covers_properties_of_beq h).1 p hmem
    rw [property?, List.find?_isSome]
    exact ⟨q, hq, decide_eq_true ((Property.kind_eq_of_beq hpq).symm.trans hkind)⟩
  rw [Bool.eq_iff_iff]
  exact ⟨hsome h, hsome (BEq.symm h)⟩

/-- Parts of equal statements are equal when their properties are. -/
theorem part_beq_iff (h : (s == t) = true) {ps qs : List Property} :
    (({ s with properties := ps } : Statement) == { t with properties := qs }) = true ↔
      ps.length = qs.length ∧ Covers (fun p q => (p == q) = true) ps qs := by
  obtain ⟨hvar, hpolarity, -⟩ := Statement.beq_iff.1 h
  rw [Statement.beq_iff]
  exact ⟨fun h => h.2.2, fun h => ⟨hvar, hpolarity, h⟩⟩

theorem part_singleton_beq_iff (h : (s == t) = true) {p q : Property} :
    (({ s with properties := [p] } : Statement) == { t with properties := [q] }) = true ↔
      (p == q) = true := by
  rw [part_beq_iff h]
  simp [Covers]

/-- A relation and its type are equal to a relation and its type only one by one. -/
theorem part_pair_beq_iff (h : (s == t) = true) {r i r' i' : Property} (hr : r.kind = .relation)
    (hi : i.kind = .isa) (hr' : r'.kind = .relation) (hi' : i'.kind = .isa) :
    (({ s with properties := [r, i] } : Statement) == { t with properties := [r', i'] }) = true ↔
      (r == r') = true ∧ (i == i') = true := by
  have hcross {p q : Property} (hpq : p.kind ≠ q.kind) : (p == q) = false :=
    Bool.eq_false_iff.2 fun heq => hpq (Property.kind_eq_of_beq heq)
  have hri : (r == i') = false := hcross (by simp [hr, hi'])
  have hir : (i == r') = false := hcross (by simp [hi, hr'])
  rw [part_beq_iff h]
  simp [Covers, hri, hir]

/-- Either there is no relation with a type, or a first relation takes a first type. -/
theorem untyped_or_typed (s : Statement) :
    (s.property? .relation = none ∨ s.property? .isa = none) ∨
      ∃ r i, s.property? .relation = some r ∧ s.property? .isa = some i := by
  cases hr : s.property? .relation with
  | none => exact .inl (.inl rfl)
  | some r =>
    cases hi : s.property? .isa with
    | none => exact .inl (.inr rfl)
    | some i => exact .inr ⟨r, i, rfl, rfl⟩

theorem units_of_untyped (h : s.property? .relation = none ∨ s.property? .isa = none) :
    s.units = if s.properties.length ≤ 1 then [s]
      else s.properties.map fun p => { s with properties := [p] } := by
  rw [units]
  split
  · obtain ⟨_, _, _⟩ := s
    rfl
  · split
    · rename_i hrelation
      have hisa : s.property? .isa = none := by
        apply h.resolve_left
        rw [property?, List.find?_eq_none]
        intro hnone
        obtain ⟨p, hp, hkind⟩ := List.any_eq_true.1 hrelation
        exact hnone p hp hkind
      have hall : s.properties.filter (·.kind ≠ .isa) = s.properties := by
        rw [List.filter_eq_self]
        intro p hp
        simpa using List.find?_eq_none.1 hisa p hp
      rw [hisa, Property.relationUnits_none, hall, List.map_map]
      rfl
    · rw [List.map_map]
      rfl

section Typed

variable {r i : Property} (hr : s.property? .relation = some r) (hi : s.property? .isa = some i)

include hr hi

theorem units_of_typed :
    s.units =
      (Property.relationUnits (some i) s.properties).map fun ps => { s with properties := ps } := by
  obtain ⟨hrmem, hrkind⟩ := mem_properties_of_property? hr
  obtain ⟨himem, hikind⟩ := mem_properties_of_property? hi
  have hlength : ¬ s.properties.length ≤ 1 := by
    intro hle
    have hsame : r = i := by
      obtain ⟨p, hp⟩ := List.length_eq_one_iff.1
        (Nat.le_antisymm hle (List.length_pos_of_mem hrmem))
      rw [hp, List.mem_singleton] at hrmem himem
      exact hrmem.trans himem.symm
    rw [hsame, hikind] at hrkind
    cases hrkind
  have hrelation : s.hasKind .relation = true :=
    List.any_eq_true.2 ⟨r, hrmem, decide_eq_true hrkind⟩
  rw [units, if_neg hlength, if_pos hrelation, hi]

theorem mem_units_of_typed {u : Statement} :
    u ∈ s.units ↔ u = { s with properties := [r, i] } ∨
      ∃ p ∈ s.properties.eraseP (·.kind = .relation), p.kind ≠ .isa ∧
        u = { s with properties := [p] } := by
  rw [units_of_typed hr hi, List.mem_map]
  simp only [Property.mem_relationUnits_some hr]
  constructor
  · rintro ⟨ps, rfl | ⟨p, hp, hkind, rfl⟩, rfl⟩
    · exact .inl rfl
    · exact .inr ⟨p, hp, hkind, rfl⟩
  · rintro (rfl | ⟨p, hp, hkind, rfl⟩)
    · exact ⟨_, .inl rfl, rfl⟩
    · exact ⟨_, .inr ⟨p, hp, hkind, rfl⟩, rfl⟩

theorem length_units_of_typed :
    s.units.length = s.properties.countP (·.kind ≠ .isa) := by
  rw [units_of_typed hr hi, List.length_map, Property.length_relationUnits]

end Typed

theorem splitsLike_iff_of_typed {r i r' i' : Property} (hr : s.property? .relation = some r)
    (hi : s.property? .isa = some i) (hr' : t.property? .relation = some r')
    (hi' : t.property? .isa = some i') :
    s.SplitsLike t ↔ (r == r') = true ∧ (i == i') = true ∧
      s.properties.countP (·.kind = .isa) = t.properties.countP (·.kind = .isa) ∧
      (1 < s.properties.countP (· == r) ↔ 1 < t.properties.countP (· == r')) := by
  simp [SplitsLike, hr, hi, hr', hi']

theorem SplitsLike.symm (h : s.SplitsLike t) : t.SplitsLike s := by
  intro r hr i hi r' hr' i' hi'
  obtain ⟨hrelation, htype, hcount, hrecurs⟩ := h r' hr' i' hi' r hr i hi
  exact ⟨BEq.symm hrelation, BEq.symm htype, hcount.symm, hrecurs.symm⟩

theorem units_covers_of_untyped (h : (s == t) = true)
    (hs : s.property? .relation = none ∨ s.property? .isa = none) :
    Covers (fun u w => (u == w) = true) s.units t.units ∧ s.units.length = t.units.length := by
  have hnone (kind : PropertyKind) (hk : s.property? kind = none) : t.property? kind = none := by
    rw [← Option.not_isSome_iff_eq_none] at hk ⊢
    rwa [← property?_isSome_of_beq h]
  have ht := hs.imp (hnone .relation) (hnone .isa)
  have hlength := (Statement.beq_iff.1 h).2.2.1
  rw [units_of_untyped hs, units_of_untyped ht, hlength]
  split
  · exact ⟨.singleton h, rfl⟩
  · refine ⟨?_, by simpa using hlength⟩
    rw [Covers.map_iff]
    exact (Covers.iff_congr fun p _ q _ => part_singleton_beq_iff h).2 (covers_properties_of_beq h)

/-- One half of the cover: each unit of the one statement has its equal among those of the other. -/
theorem exists_beq_unit_of_splitsLike (h : (s == t) = true) (hsplit : s.SplitsLike t)
    {r i r' i' : Property} (hr : s.property? .relation = some r) (hi : s.property? .isa = some i)
    (hr' : t.property? .relation = some r') (hi' : t.property? .isa = some i') :
    ∀ u ∈ s.units, ∃ w ∈ t.units, (u == w) = true := by
  obtain ⟨hrelation, htype, -, hrecurs⟩ := hsplit r hr i hi r' hr' i' hi'
  intro u hu
  rcases (mem_units_of_typed hr hi).1 hu with rfl | ⟨p, hp, hkind, rfl⟩
  · refine ⟨_, (mem_units_of_typed hr' hi').2 (.inl rfl), ?_⟩
    rw [part_pair_beq_iff h (mem_properties_of_property? hr).2 (mem_properties_of_property? hi).2
      (mem_properties_of_property? hr').2 (mem_properties_of_property? hi').2]
    exact ⟨hrelation, htype⟩
  · obtain ⟨-, hpr⟩ := (Property.exists_beq_eraseP_iff hr).1 ⟨p, hp, BEq.rfl⟩
    have hmem : p ∈ s.properties := List.mem_of_mem_eraseP hp
    obtain ⟨q, hq, hpq⟩ := (Property.exists_beq_eraseP_iff hr').2
      ⟨(covers_properties_of_beq h).1 p hmem,
        fun hpr' => hrecurs.1 (hpr (BEq.trans hpr' (BEq.symm hrelation)))⟩
    have hqkind : q.kind ≠ .isa := by rwa [← Property.kind_eq_of_beq hpq]
    exact ⟨_, (mem_units_of_typed hr' hi').2 (.inr ⟨q, hq, hqkind, rfl⟩),
      (part_singleton_beq_iff h).2 hpq⟩

/-- The unit with the type is equal to none but the unit with the type. -/
theorem beq_of_exists_beq_unit (h : (s == t) = true) {r i r' i' : Property}
    (hr : s.property? .relation = some r) (hi : s.property? .isa = some i)
    (hr' : t.property? .relation = some r') (hi' : t.property? .isa = some i')
    (hunits : ∀ u ∈ s.units, ∃ w ∈ t.units, (u == w) = true) :
    (r == r') = true ∧ (i == i') = true := by
  obtain ⟨w, hw, huw⟩ := hunits _ ((mem_units_of_typed hr hi).2 (.inl rfl))
  rcases (mem_units_of_typed hr' hi').1 hw with rfl | ⟨q, -, -, rfl⟩
  · exact (part_pair_beq_iff h (mem_properties_of_property? hr).2
      (mem_properties_of_property? hi).2 (mem_properties_of_property? hr').2
      (mem_properties_of_property? hi').2).1 huw
  · have hlength := ((part_beq_iff h).1 huw).1
    cases hlength

theorem length_units_eq_iff (h : (s == t) = true) {r i r' i' : Property}
    (hr : s.property? .relation = some r) (hi : s.property? .isa = some i)
    (hr' : t.property? .relation = some r') (hi' : t.property? .isa = some i') :
    s.units.length = t.units.length ↔
      s.properties.countP (·.kind = .isa) = t.properties.countP (·.kind = .isa) := by
  have hs := List.length_eq_countP_add_countP (fun p : Property => decide (p.kind = .isa))
    (l := s.properties)
  have ht := List.length_eq_countP_add_countP (fun p : Property => decide (p.kind = .isa))
    (l := t.properties)
  have hst := (Statement.beq_iff.1 h).2.2.1
  rw [length_units_of_typed hr hi, length_units_of_typed hr' hi']
  simp only [decide_eq_true_eq, ne_eq] at hs ht ⊢
  omega

/-- A relation that recurs is a unit of its own beside the one with the type. -/
theorem recurs_of_exists_beq_unit (h : (s == t) = true) {r i r' i' : Property}
    (hr : s.property? .relation = some r) (hi : s.property? .isa = some i)
    (hr' : t.property? .relation = some r') (hi' : t.property? .isa = some i')
    (hunits : ∀ u ∈ s.units, ∃ w ∈ t.units, (u == w) = true) (hrelation : (r == r') = true)
    (hrecurs : 1 < s.properties.countP (· == r)) : 1 < t.properties.countP (· == r') := by
  have hrkind := (mem_properties_of_property? hr).2
  obtain ⟨p, hp, hrp⟩ := (Property.exists_beq_eraseP_iff hr).2
    ⟨⟨r, (mem_properties_of_property? hr).1, BEq.rfl⟩, fun _ => hrecurs⟩
  have hpkind : p.kind ≠ .isa := by
    rw [← Property.kind_eq_of_beq hrp, hrkind]
    decide
  obtain ⟨w, hw, hpw⟩ := hunits _ ((mem_units_of_typed hr hi).2 (.inr ⟨p, hp, hpkind, rfl⟩))
  rcases (mem_units_of_typed hr' hi').1 hw with rfl | ⟨q, hq, -, rfl⟩
  · have hlength := ((part_beq_iff h).1 hpw).1
    cases hlength
  · have hpq := (part_singleton_beq_iff h).1 hpw
    have hqr : (q == r') = true := BEq.trans (BEq.symm (BEq.trans hrp hpq)) hrelation
    exact ((Property.exists_beq_eraseP_iff hr').1 ⟨q, hq, BEq.rfl⟩).2 hqr

/-- Equal statements have equal units, and equally many, just when they split alike. -/
theorem units_covers_iff (h : (s == t) = true) :
    (Covers (fun u w => (u == w) = true) s.units t.units ∧ s.units.length = t.units.length) ↔
      s.SplitsLike t := by
  have hsome := property?_isSome_of_beq h
  cases hr : s.property? .relation with
  | none =>
    refine iff_of_true (units_covers_of_untyped h (.inl hr)) ?_
    intro r hr'
    rw [hr] at hr'
    cases hr'
  | some r =>
    cases hi : s.property? .isa with
    | none =>
      refine iff_of_true (units_covers_of_untyped h (.inr hi)) ?_
      intro _ _ i hi'
      rw [hi] at hi'
      cases hi'
    | some i =>
      obtain ⟨r', hr'⟩ := Option.isSome_iff_exists.1 ((hsome .relation).symm.trans (by rw [hr]; rfl))
      obtain ⟨i', hi'⟩ := Option.isSome_iff_exists.1 ((hsome .isa).symm.trans (by rw [hi]; rfl))
      have hlength := length_units_eq_iff h hr hi hr' hi'
      constructor
      · rintro ⟨hcovers, hcount⟩
        rw [splitsLike_iff_of_typed hr hi hr' hi']
        obtain ⟨hrelation, htype⟩ := beq_of_exists_beq_unit h hr hi hr' hi' hcovers.1
        refine ⟨hrelation, htype, hlength.1 hcount, ?_, ?_⟩
        · exact recurs_of_exists_beq_unit h hr hi hr' hi' hcovers.1 hrelation
        · exact recurs_of_exists_beq_unit (BEq.symm h) hr' hi' hr hi
            (hcovers.flip fun _ _ => BEq.symm).1 (BEq.symm hrelation)
      · intro hsplit
        refine ⟨⟨exists_beq_unit_of_splitsLike h hsplit hr hi hr' hi', ?_⟩,
          hlength.2 (hsplit r hr i hi r' hr' i' hi').2.2.1⟩
        intro w hw
        obtain ⟨u, hu, hwu⟩ :=
          exists_beq_unit_of_splitsLike (BEq.symm h) hsplit.symm hr' hi' hr hi w hw
        exact ⟨u, hu, BEq.symm hwu⟩

end Statement

end GraphQuery
