import GraphQuery.Proofs.Store.History

/-!
# Consistency of stores

After any calls of operations on the empty store, refused calls included, the store is consistent:
each of its indexes says of the concepts and edges what they say themselves
(`after_consistent`). The players of a relation are moreover those that the calls gave to it, in the
order in which they first did.
-/

namespace GraphQuery.Store

variable {s t : Store}

/-- The indexes of a store agree with its concepts, its edges and each other. -/
structure Consistent (s : Store) : Prop where
  label : ∀ id l, s.labels.label? id = some l ↔ s.labels.idOf? l = some id
  labelNumber : ∀ id, (s.labels.label? id).isSome ↔ id.number < s.labels.size
  typesByLabel : ∀ label id, s.typesByLabel.get? label = some id ↔
    ∃ valueType, s.IsType id label valueType
  typeLabel : ∀ id label valueType, s.IsType id label valueType → ∃ l, s.label? id = some l
  typeWithLabel : ∀ l id, s.typeWithLabel? l = some id ↔ s.label? id = some l
  superType : ∀ id upper, s.superType? id = some upper →
    upper.number < id.number ∧ ∃ label valueType, s.IsType upper label valueType
  superTypesEnd : ∀ id, ∃ n, (·.bind s.superType?)^[n] (some id) = none
  memberType : ∀ id type, s.type? id = some type → ∃ label valueType, s.IsType type label valueType
  members : ∀ id type, id ∈ s.members type ↔ s.type? id = some type
  attributesUnique : ∀ id other, (s.value? id).isSome → s.type? id = s.type? other →
    s.value? id = s.value? other → id = other
  attributesByValue : ∀ type value id, s.attributesByValue.lookup (type, value) = some id ↔
    s.type? id = some type ∧ s.value? id = some value
  ownership : ∀ owner owned, owned ∈ s.attributes owner ↔ owner ∈ s.owners owned
  ownershipEnds : ∀ owner owned, owned ∈ s.attributes owner → s.IsMember owner ∧ s.IsMember owned
  roleEdgesOnce : s.roleEdges.Nodup
  roleEdgeRole : ∀ edge ∈ s.roleEdges, ∀ id ∈ edge.role, ∃ l, s.labels.label? id = some l
  roleEdgeEnds : ∀ edge ∈ s.roleEdges, s.IsMember edge.relation ∧ s.IsMember edge.player
  numbersFrom : ∀ relation, s.numbersFrom relation = s.roleEdges.findIdxs (·.relation = relation)
  numbersTo : ∀ player, s.numbersTo player = s.roleEdges.findIdxs (·.player = player)
  players : ∀ relation, s.players relation = (s.roleEdges.filter (·.relation = relation)).map
    fun edge => (edge.role.bind s.labels.label?, edge.player)
  relations : ∀ relation player, relation ∈ s.relations player ↔
    ∃ edge ∈ s.roleEdges, edge.relation = relation ∧ edge.player = player

theorem isType_iff {id : ConceptId} {label : LabelId} :
    (∃ valueType, s.IsType id label valueType) ↔
      ∃ superType, s.outline? id = some (.type label superType none) := by
  simp only [IsType, outline?_eq_type_iff]
  exact exists_comm

theorem superType?_eq_some_iff {id upper : ConceptId} :
    s.superType? id = some upper ↔
      ∃ label, s.outline? id = some (.type label (some upper) none) := by
  simp only [outline?_eq_type_iff, superType?]
  split <;> simp_all

theorem label?_eq_some_iff {id : ConceptId} {l : Label} :
    s.label? id = some l ↔
      ∃ label superType, s.outline? id = some (.type label superType none) ∧
        s.labels.label? label = some l := by
  simp only [outline?_eq_type_iff, label?]
  split <;> simp_all

theorem type?_eq_some_iff {id type : ConceptId} :
    s.type? id = some type ↔ ∃ value, s.outline? id = some (.member type value) := by
  simp only [outline?_eq_member_iff, type?]
  split <;> simp_all

theorem attribute_iff {id type : ConceptId} {value : Value} :
    s.type? id = some type ∧ s.value? id = some value ↔
      s.outline? id = some (.member type (some value)) := by
  simp only [outline?_eq_member_iff, type?, value?]
  split <;> simp_all

theorem TypesIndexed.superTypesEnd (h : s.TypesIndexed) (id : ConceptId) :
    ∃ n, (·.bind s.superType?)^[n] (some id) = none := by
  induction hid : id.number using Nat.strongRecOn generalizing id with
  | ind number ih =>
    cases hupper : s.superType? id with
    | none => exact ⟨1, hupper⟩
    | some upper =>
      obtain ⟨label, houtline⟩ := superType?_eq_some_iff.1 hupper
      obtain ⟨n, hn⟩ := ih _ (hid ▸ (h.superType houtline).1) upper rfl
      refine ⟨n + 1, ?_⟩
      rw [Function.iterate_succ_apply]
      simpa [hupper] using hn

/-- The indexes of a store are in line with its concepts and edges. -/
structure Indexed (s : Store) : Prop where
  typesIndexed : s.TypesIndexed
  membersIndexed : s.MembersIndexed
  attributesIndexed : s.AttributesIndexed
  ownershipIndexed : s.OwnershipIndexed
  roleEdgesIndexed : s.RoleEdgesIndexed

theorem Reachable.indexed (h : s.Reachable) : s.Indexed where
  typesIndexed := h.typesIndexed
  membersIndexed := h.membersIndexed
  attributesIndexed := h.attributesIndexed
  ownershipIndexed := h.ownershipIndexed
  roleEdgesIndexed := h.roleEdgesIndexed

theorem Grows.indexed (h : s.Grows t) (hs : s.Indexed) : t.Indexed where
  typesIndexed := h.typesIndexed hs.typesIndexed
  membersIndexed := h.membersIndexed hs.membersIndexed
  attributesIndexed := h.attributesIndexed hs.attributesIndexed
  ownershipIndexed := h.ownershipIndexed hs.ownershipIndexed
  roleEdgesIndexed := h.roleEdgesIndexed hs.roleEdgesIndexed

theorem Indexed.consistent (h : s.Indexed) : s.Consistent where
  label _ _ := LabelTable.label?_eq_some_iff
  labelNumber _ := LabelTable.isSome_label?
  typesByLabel label id := by rw [h.typesIndexed.index, isType_iff]
  typeLabel id label valueType hid := by
    obtain ⟨superType, houtline⟩ := isType_iff.1 ⟨valueType, hid⟩
    obtain ⟨l, hl⟩ := h.typesIndexed.known houtline
    exact ⟨l, label?_eq_some_iff.2 ⟨_, _, houtline, LabelTable.label?_eq_some_iff.2 hl⟩⟩
  typeWithLabel l id := by
    rw [label?_eq_some_iff, typeWithLabel?]
    simp only [Option.bind_eq_bind, Option.bind_eq_some_iff, h.typesIndexed.index,
      LabelTable.label?_eq_some_iff]
    grind
  superType id upper hid := by
    obtain ⟨label, houtline⟩ := superType?_eq_some_iff.1 hid
    obtain ⟨hlt, upperLabel, hupper⟩ := h.typesIndexed.superType houtline
    exact ⟨hlt, upperLabel, isType_iff.2 hupper⟩
  superTypesEnd := h.typesIndexed.superTypesEnd
  memberType id type hid := by
    obtain ⟨value, houtline⟩ := type?_eq_some_iff.1 hid
    obtain ⟨label, htype⟩ := h.membersIndexed.type houtline
    exact ⟨label, isType_iff.2 htype⟩
  members id type := by rw [h.membersIndexed.index, type?_eq_some_iff]
  attributesUnique id other hid htype hvalue := by
    obtain ⟨value, hid⟩ := Option.isSome_iff_exists.1 hid
    obtain ⟨type, hmember⟩ : ∃ type, s.type? id = some type := by
      simp only [value?] at hid
      simp only [type?]
      split at hid <;> simp_all
    have hfound := h.attributesIndexed.index.2 (attribute_iff.1 ⟨hmember, hid⟩)
    have hother := h.attributesIndexed.index.2
      (attribute_iff.1 ⟨htype.symm.trans hmember, hvalue.symm.trans hid⟩)
    exact Option.some.inj (hfound.symm.trans hother)
  attributesByValue type value id := by rw [h.attributesIndexed.index, attribute_iff]
  ownership _ _ := h.ownershipIndexed.mirrored
  ownershipEnds _ _ := h.ownershipIndexed.ends
  roleEdgesOnce := h.roleEdgesIndexed.nodup
  roleEdgeRole := h.roleEdgesIndexed.role
  roleEdgeEnds := h.roleEdgesIndexed.ends
  numbersFrom := h.roleEdgesIndexed.numbersFrom
  numbersTo := h.roleEdgesIndexed.numbersTo
  players relation := by rw [Store.players, h.roleEdgesIndexed.edgesFrom]
  relations relation player := by
    simp only [relations, SortedSet.mem_ofList, h.roleEdgesIndexed.edgesTo, List.mem_map,
      List.mem_filter, decide_eq_true_eq]
    grind

theorem Reachable.consistent (h : s.Reachable) : s.Consistent := h.indexed.consistent

/-- The store that calls on the empty store leave, refused ones included. -/
def after (ops : List Operation) : Store := empty.runAll ops

theorem reachable_after (ops : List Operation) : (after ops).Reachable :=
  Reachable.runAll (Evolves.refl empty) ops

/-- A relation has the players that the role edges of the store give it. -/
theorem Consistent.players_eq (h : s.Consistent) (relation : ConceptId) :
    s.players relation = (s.playings.filter (·.relation = relation)).map
      fun playing => (playing.role, playing.player) := by
  rw [h.players, playings, List.filter_map, List.map_map]
  rfl

/-- A store is consistent after any calls, and each relation has the players that the calls gave to
it, once each and in the order in which they first did. -/
theorem after_consistent (ops : List Operation) :
    (after ops).Consistent ∧ ∀ relation, (after ops).players relation =
      ((empty.playingsOf ops).eraseDups.filter (·.relation = relation)).map
        fun playing => (playing.role, playing.player) := by
  have hconsistent := (reachable_after ops).consistent
  have hnothing : empty.playings = ([] : List Playing).eraseDups := rfl
  have hplayings : (after ops).playings = _ := playings_runAll (Evolves.refl empty) hnothing ops
  refine ⟨hconsistent, fun relation => ?_⟩
  rw [hconsistent.players_eq, hplayings, List.nil_append]

end GraphQuery.Store
