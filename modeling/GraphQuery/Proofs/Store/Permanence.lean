import GraphQuery.Proofs.Store.Facts
import GraphQuery.Proofs.Store.Observation

/-!
# What a store keeps

Whatever a store evolves into retains what can be read of the store: its concepts stay what they
are, but that a type may get a datatype, and its edges stay, new players of a relation coming after
those that it had.
-/

namespace GraphQuery.Store

variable {s t u : Store} {id : ConceptId}

/-- What can be read of the first store can be read of the second one as well. -/
structure Retains (s t : Store) : Prop where
  size : s.size ≤ t.size
  isMember : ∀ id, id.number < s.size → (t.IsMember id ↔ s.IsMember id)
  label? : ∀ id, id.number < s.size → t.label? id = s.label? id
  superType? : ∀ id, id.number < s.size → t.superType? id = s.superType? id
  type? : ∀ id, id.number < s.size → t.type? id = s.type? id
  value? : ∀ id, id.number < s.size → t.value? id = s.value? id
  valueType? : ∀ id v, s.valueType? id = some v → t.valueType? id = some v
  typeWithLabel? : ∀ l id, s.typeWithLabel? l = some id → t.typeWithLabel? l = some id
  members : ∀ type, ∀ id ∈ s.members type, id ∈ t.members type
  attributes : ∀ owner, ∀ owned ∈ s.attributes owner, owned ∈ t.attributes owner
  owners : ∀ owned, ∀ owner ∈ s.owners owned, owner ∈ t.owners owned
  players : ∀ relation, s.players relation <+: t.players relation
  relations : ∀ player, ∀ relation ∈ s.relations player, relation ∈ t.relations player

theorem exists_outline? (hid : id.number < s.size) : ∃ c, s.outline? id = some c := by
  obtain ⟨c, hc⟩ : ∃ c, s.concept? id = some c := ⟨_, Array.getElem?_eq_getElem hid⟩
  exact ⟨c.outline, by rw [outline?, hc, Option.map_some]⟩

/-- A concept stays what it is, whatever datatype it has or gets. -/
theorem Evolves.concept?_cases (h : s.Evolves t) (hid : id.number < s.size) :
    (∃ label superType valueType valueType',
      s.concept? id = some (.type label superType valueType) ∧
        t.concept? id = some (.type label superType valueType')) ∨
      ∃ type value, s.concept? id = some (.member type value) ∧
        t.concept? id = some (.member type value) := by
  obtain ⟨c, hc⟩ := exists_outline? hid
  have hlater := h.outline?_eq hc
  rw [outline?, Option.map_eq_some_iff] at hc
  obtain ⟨c, hconcept, rfl⟩ := hc
  cases c with
  | type label superType valueType =>
    obtain ⟨valueType', hlater⟩ := outline?_eq_type_iff.1 hlater
    exact .inl ⟨label, superType, valueType, valueType', hconcept, hlater⟩
  | member type value =>
    exact .inr ⟨type, value, hconcept, outline?_eq_member_iff.1 hlater⟩

theorem Evolves.size_le (h : s.Evolves t) : s.size ≤ t.size := by
  by_contra hlt
  have hfound : ∃ c, s.outline? t.nextId = some c := exists_outline? (Nat.lt_of_not_le hlt)
  obtain ⟨c, hc⟩ := hfound
  exact ne_nextId (h.outline?_eq hc) rfl

theorem Evolves.isMember_iff (h : s.Evolves t) (hid : id.number < s.size) :
    t.IsMember id ↔ s.IsMember id := by
  rcases h.concept?_cases hid with ⟨_, _, _, _, hs, ht⟩ | ⟨_, _, hs, ht⟩ <;>
    simp [IsMember, hs, ht]

theorem Evolves.superType?_eq (h : s.Evolves t) (hid : id.number < s.size) :
    t.superType? id = s.superType? id := by
  rcases h.concept?_cases hid with ⟨_, _, _, _, hs, ht⟩ | ⟨_, _, hs, ht⟩ <;>
    simp [superType?, hs, ht]

theorem Evolves.type?_eq (h : s.Evolves t) (hid : id.number < s.size) :
    t.type? id = s.type? id := by
  rcases h.concept?_cases hid with ⟨_, _, _, _, hs, ht⟩ | ⟨_, _, hs, ht⟩ <;> simp [type?, hs, ht]

theorem Evolves.value?_eq (h : s.Evolves t) (hid : id.number < s.size) :
    t.value? id = s.value? id := by
  rcases h.concept?_cases hid with ⟨_, _, _, _, hs, ht⟩ | ⟨_, _, hs, ht⟩ <;> simp [value?, hs, ht]

/-- A label has been met before a type has it, so the type keeps it. -/
theorem Evolves.label?_eq (h : s.Evolves t) (hs : s.Reachable) (hid : id.number < s.size) :
    t.label? id = s.label? id := by
  obtain ⟨label, superType, valueType, _, hsid, htid⟩ | ⟨_, _, hsid, htid⟩ := h.concept?_cases hid
  · obtain ⟨l, hl⟩ := hs.consistent.typeLabel id label valueType ⟨superType, hsid⟩
    rw [Store.label?, hsid] at hl
    have hlater : t.labels.label? label = some l := h.extends.labels _ _ hl
    simp [Store.label?, hsid, htid, hl, hlater]
  · simp [Store.label?, hsid, htid]

theorem lt_size_of_label? {l : Label} (hl : s.label? id = some l) : id.number < s.size := by
  obtain ⟨label, superType, houtline, -⟩ := label?_eq_some_iff.1 hl
  exact lt_size_of_outline? houtline

theorem Evolves.typeWithLabel?_eq (h : s.Evolves t) (hs : s.Reachable) {l : Label}
    (hid : s.typeWithLabel? l = some id) : t.typeWithLabel? l = some id := by
  have ht : t.Reachable := hs.trans h
  rw [hs.consistent.typeWithLabel] at hid
  rw [ht.consistent.typeWithLabel, h.label?_eq hs (lt_size_of_label? hid), hid]

theorem Evolves.mem_members (h : s.Evolves t) (hs : s.Reachable) {type : ConceptId}
    (hid : id ∈ s.members type) : id ∈ t.members type := by
  have ht : t.Reachable := hs.trans h
  rw [hs.membersIndexed.index] at hid
  obtain ⟨value, hid⟩ := hid
  exact ht.membersIndexed.index.2 ⟨value, h.outline?_eq hid⟩

/-- The players that a relation has stay the first ones. -/
theorem Evolves.players_prefix (h : s.Evolves t) (hs : s.Reachable) (relation : ConceptId) :
    s.players relation <+: t.players relation := by
  have ht : t.Reachable := hs.trans h
  obtain ⟨more, hmore⟩ : s.edgesFrom relation <+: t.edgesFrom relation := by
    rw [hs.roleEdgesIndexed.edgesFrom, ht.roleEdgesIndexed.edgesFrom]
    exact h.extends.roleEdges.filter _
  have hroles : (s.edgesFrom relation).map
      (fun edge => (edge.role.bind t.labels.label?, edge.player)) = s.players relation := by
    refine List.map_congr_left fun edge hedge => ?_
    rw [hs.roleEdgesIndexed.edgesFrom] at hedge
    have hrole := hs.roleEdgesIndexed.role edge (List.mem_filter.1 hedge).1
    cases hid : edge.role with
    | none => rfl
    | some id =>
      obtain ⟨l, hl⟩ := hrole id hid
      simp [hl, h.extends.labels _ _ hl]
  have hlater : t.players relation =
      (t.edgesFrom relation).map fun edge => (edge.role.bind t.labels.label?, edge.player) := rfl
  rw [hlater, ← hmore, List.map_append, hroles]
  exact List.prefix_append ..

theorem Extends.relations (h : s.Extends t) {player relation : ConceptId}
    (hrelation : relation ∈ s.relations player) : relation ∈ t.relations player := by
  obtain ⟨edge, hedge, rfl⟩ := List.mem_map.1 (SortedSet.mem_ofList.1 hrelation)
  have hlater : edge ∈ t.edgesTo player := h.mem_edgesTo hedge
  exact SortedSet.mem_ofList.2 (List.mem_map.2 ⟨edge, hlater, rfl⟩)

/-- A store retains all that can be read of it. -/
theorem Evolves.retains (h : s.Evolves t) (hs : s.Reachable) : s.Retains t where
  size := h.size_le
  isMember _ := h.isMember_iff
  label? _ := h.label?_eq hs
  superType? _ := h.superType?_eq
  type? _ := h.type?_eq
  value? _ := h.value?_eq
  valueType? _ _ := h.valueType?_eq
  typeWithLabel? _ _ := h.typeWithLabel?_eq hs
  members _ _ := h.mem_members hs
  attributes := h.extends.attributes
  owners := h.extends.owners
  players := h.players_prefix hs
  relations _ _ := h.extends.relations

end GraphQuery.Store
