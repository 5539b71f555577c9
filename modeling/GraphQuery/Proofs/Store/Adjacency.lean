import GraphQuery.Proofs.Store.Records

/-!
# Instances and their edges

In a reachable store all edges join instances, an ownership stands at both of its ends, no role edge
is there twice, and the indexes have the numbers of the role edges at either end in their order.
-/

namespace GraphQuery.Store

variable {s t : Store}

theorem isMember_iff {id : ConceptId} :
    s.IsMember id ↔ ∃ type value, s.outline? id = some (.member type value) := by
  simp only [IsMember, outline?_eq_member_iff]

theorem Grows.isMember (h : s.Grows t) {id : ConceptId} (hid : s.IsMember id) : t.IsMember id := by
  rw [isMember_iff] at hid ⊢
  obtain ⟨type, value, hid⟩ := hid
  exact ⟨type, value, h.outline?_eq hid⟩

/-- The edges are the same. -/
structure SameEdges (s t : Store) : Prop where
  attributesByOwner : t.attributesByOwner = s.attributesByOwner
  ownersByAttribute : t.ownersByAttribute = s.ownersByAttribute
  roleEdges : t.roleEdges = s.roleEdges
  edgesByRelation : t.edgesByRelation = s.edgesByRelation
  edgesByPlayer : t.edgesByPlayer = s.edgesByPlayer

/-- A step adds no edge, or an ownership, or a role edge, between instances. -/
theorem Grows.edges (h : s.Grows t) :
    s.SameEdges t ∨
      (∃ owner owned, s.IsMember owner ∧ s.IsMember owned ∧ t = s.withHas owner owned) ∨
      (∃ edge : RoleEdge, (∀ role ∈ edge.role, ∃ l, s.labels.idOf? l = some role) ∧
        s.IsMember edge.relation ∧ s.IsMember edge.player ∧ edge ∉ s.roleEdges ∧
        t = s.withRoleEdge edge) := by
  cases h with
  | meetLabel => exact .inl ⟨rfl, rfl, rfl, rfl, rfl⟩
  | addType => exact .inl ⟨rfl, rfl, rfl, rfl, rfl⟩
  | extendType =>
    left
    rw [withTypeInfo]
    split <;> exact ⟨rfl, rfl, rfl, rfl, rfl⟩
  | addMember => exact .inl ⟨rfl, rfl, rfl, rfl, rfl⟩
  | addAttribute => exact .inl ⟨rfl, rfl, rfl, rfl, rfl⟩
  | addHas howner howned => exact .inr (.inl ⟨_, _, howner, howned, rfl⟩)
  | addRoleEdge hrole hrelation hplayer hnew =>
    exact .inr (.inr ⟨_, hrole, hrelation, hplayer, hnew, rfl⟩)

/-- The two indexes of ownerships, which say the same of instances. -/
structure OwnershipIndexed (s : Store) : Prop where
  mirrored : ∀ {owner owned}, owned ∈ s.attributes owner ↔ owner ∈ s.owners owned
  ends : ∀ {owner owned}, owned ∈ s.attributes owner → s.IsMember owner ∧ s.IsMember owned

theorem mem_attributes_withHas {owner owned a b : ConceptId} :
    b ∈ (s.withHas owner owned).attributes a ↔
      (a = owner ∧ b = owned) ∨ b ∈ s.attributes a := by
  rw [attributes_withHas]
  by_cases ha : owner = a
  · simp [ha, SortedSet.mem_insert]
  · simp [ha, Ne.symm ha]

theorem mem_owners_withHas {owner owned a b : ConceptId} :
    a ∈ (s.withHas owner owned).owners b ↔ (a = owner ∧ b = owned) ∨ a ∈ s.owners b := by
  rw [owners_withHas]
  by_cases hb : owned = b
  · simp [hb, SortedSet.mem_insert]
  · simp [hb, Ne.symm hb]

theorem Grows.ownershipIndexed (h : s.Grows t) (hs : s.OwnershipIndexed) :
    t.OwnershipIndexed := by
  have hends : ∀ {owner owned}, owned ∈ s.attributes owner → t.IsMember owner ∧ t.IsMember owned :=
    fun ho => (hs.ends ho).imp h.isMember h.isMember
  have hsame : t.attributesByOwner = s.attributesByOwner →
      t.ownersByAttribute = s.ownersByAttribute → t.OwnershipIndexed := by
    intro hattributes howners
    refine ⟨?_, ?_⟩ <;> simp only [attributes, owners, hattributes, howners]
    · exact hs.mirrored
    · exact hends
  obtain hedges | ⟨owner, owned, howner, howned, rfl⟩ | ⟨edge, -, -, -, -, rfl⟩ := h.edges
  · exact hsame hedges.attributesByOwner hedges.ownersByAttribute
  · refine ⟨fun {a b} => ?_, fun {a b} hb => ?_⟩
    · rw [mem_attributes_withHas, mem_owners_withHas, hs.mirrored]
    · rcases mem_attributes_withHas.1 hb with ⟨rfl, rfl⟩ | hb
      · exact ⟨h.isMember howner, h.isMember howned⟩
      · exact hends hb
  · exact hsame rfl rfl

/-- The list of all role edges, and the numbers that the indexes have for either end of them. -/
structure RoleEdgesIndexed (s : Store) : Prop where
  nodup : s.roleEdges.Nodup
  role : ∀ edge ∈ s.roleEdges, ∀ id ∈ edge.role, ∃ l, s.labels.label? id = some l
  ends : ∀ edge ∈ s.roleEdges, s.IsMember edge.relation ∧ s.IsMember edge.player
  numbersFrom : ∀ relation, s.numbersFrom relation = s.roleEdges.findIdxs (·.relation = relation)
  numbersTo : ∀ player, s.numbersTo player = s.roleEdges.findIdxs (·.player = player)

theorem RoleEdgesIndexed.edgesFrom (h : s.RoleEdgesIndexed) (relation : ConceptId) :
    s.edgesFrom relation = s.roleEdges.filter (·.relation = relation) := by
  rw [Store.edgesFrom, h.numbersFrom, filterMap_findIdxs]

theorem RoleEdgesIndexed.edgesTo (h : s.RoleEdgesIndexed) (player : ConceptId) :
    s.edgesTo player = s.roleEdges.filter (·.player = player) := by
  rw [Store.edgesTo, h.numbersTo, filterMap_findIdxs]

theorem RoleEdgesIndexed.withRoleEdge (hs : s.RoleEdgesIndexed) {edge : RoleEdge}
    (hrole : ∀ role ∈ edge.role, ∃ l, s.labels.idOf? l = some role)
    (hrelation : s.IsMember edge.relation) (hplayer : s.IsMember edge.player)
    (hnew : edge ∉ s.roleEdges) : (s.withRoleEdge edge).RoleEdgesIndexed := by
  have hmem : ∀ e ∈ (s.withRoleEdge edge).roleEdges, e ∈ s.roleEdges ∨ e = edge := by
    intro e he
    exact (List.mem_append.1 he).imp id List.mem_singleton.1
  refine ⟨?_, fun e he id hid => ?_, fun e he => ?_, fun relation => ?_, fun player => ?_⟩
  · exact List.nodup_append.2 ⟨hs.nodup, List.pairwise_singleton .., fun a ha b hb e =>
      hnew (List.mem_singleton.1 hb ▸ e ▸ ha)⟩
  · rcases hmem e he with he | rfl
    · exact hs.role e he id hid
    · obtain ⟨l, hl⟩ := hrole id hid
      exact ⟨l, LabelTable.label?_eq_some_iff.2 hl⟩
  · rcases hmem e he with he | rfl
    · exact hs.ends e he
    · exact ⟨hrelation, hplayer⟩
  · rw [numbersFrom_withRoleEdge, hs.numbersFrom, hs.numbersFrom]
    by_cases h : edge.relation = relation
    · simp [Store.withRoleEdge, h]
    · simp [Store.withRoleEdge, h]
  · rw [numbersTo_withRoleEdge, hs.numbersTo, hs.numbersTo]
    by_cases h : edge.player = player
    · simp [Store.withRoleEdge, h]
    · simp [Store.withRoleEdge, h]

theorem Grows.roleEdgesIndexed (h : s.Grows t) (hs : s.RoleEdgesIndexed) :
    t.RoleEdgesIndexed := by
  have hsame : t.roleEdges = s.roleEdges → t.edgesByRelation = s.edgesByRelation →
      t.edgesByPlayer = s.edgesByPlayer → t.RoleEdgesIndexed := by
    intro hedges hrelations hplayers
    refine ⟨?_, ?_, ?_, ?_, ?_⟩ <;>
      simp only [Store.numbersFrom, Store.numbersTo, hedges, hrelations, hplayers]
    · exact hs.nodup
    · intro edge hedge id hid
      obtain ⟨l, hl⟩ := hs.role edge hedge id hid
      exact ⟨l, h.extends.labels _ _ hl⟩
    · intro edge hedge
      exact (hs.ends edge hedge).imp h.isMember h.isMember
    · exact hs.numbersFrom
    · exact hs.numbersTo
  obtain hedges | ⟨owner, owned, -, -, rfl⟩ | ⟨edge, hrole, hrelation, hplayer, hnew, rfl⟩ := h.edges
  · exact hsame hedges.roleEdges hedges.edgesByRelation hedges.edgesByPlayer
  · exact hsame rfl rfl rfl
  · exact hs.withRoleEdge hrole hrelation hplayer hnew

theorem Reachable.ownershipIndexed (h : s.Reachable) : s.OwnershipIndexed := by
  refine h.induction ⟨?_, ?_⟩ fun _ _ hgrows hs => hgrows.ownershipIndexed hs
  · simp [attributes, owners, show empty.attributesByOwner = .empty from rfl,
      show empty.ownersByAttribute = .empty from rfl]
  · simp [attributes, show empty.attributesByOwner = .empty from rfl]

theorem Reachable.roleEdgesIndexed (h : s.Reachable) : s.RoleEdgesIndexed :=
  h.induction
    ⟨.nil, fun _ h => absurd h List.not_mem_nil, fun _ h => absurd h List.not_mem_nil,
      fun _ => rfl, fun _ => rfl⟩
    fun _ _ hgrows hs => hgrows.roleEdgesIndexed hs

end GraphQuery.Store
