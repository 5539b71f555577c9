import GraphQuery.Proofs.Collection.Lists
import GraphQuery.Proofs.Store.Evolution

/-!
# Edges of a store

A store never loses an edge, and in a reachable store every role edge is found from both of its
ends.
-/

namespace GraphQuery.Store

/-- The instance owns the attribute, read from either end. -/
def Owns (s : Store) (owner owned : ConceptId) : Prop :=
  owned ∈ s.attributes owner ∧ owner ∈ s.owners owned

/-- The concept plays the role in the relation, read from either end. -/
def Plays (s : Store) (relation : ConceptId) (role : Option Label) (player : ConceptId) : Prop :=
  (role, player) ∈ s.players relation ∧ relation ∈ s.relations player

/-- A role edge stands at both ends, with the number of the label that its role has. -/
def HasEdge (s : Store) (relation : ConceptId) (role : Option Label) (player : ConceptId) : Prop :=
  ∃ edge : RoleEdge, edge ∈ s.edgesFrom relation ∧ edge ∈ s.edgesTo player ∧
    edge.relation = relation ∧ edge.player = player ∧
    Option.Rel (fun id l => s.labels.label? id = some l) edge.role role

theorem HasEdge.plays {s : Store} {relation player : ConceptId} {role : Option Label}
    (h : s.HasEdge relation role player) : s.Plays relation role player := by
  obtain ⟨⟨relation, id, player⟩, hfrom, hto, rfl, rfl, hrole⟩ := h
  refine ⟨List.mem_map.2 ⟨_, hfrom, ?_⟩, SortedSet.mem_ofList.2 (List.mem_map.2 ⟨_, hto, rfl⟩)⟩
  dsimp only at hrole ⊢
  cases hrole with
  | none => rfl
  | some hlabel => simp [hlabel]

/-- The labels and edges of one store are there in another, too. -/
structure Extends (s t : Store) : Prop where
  labels : s.labels.Within t.labels
  attributes : ∀ owner, ∀ owned ∈ s.attributes owner, owned ∈ t.attributes owner
  owners : ∀ owned, ∀ owner ∈ s.owners owned, owner ∈ t.owners owned
  roleEdges : s.roleEdges <+: t.roleEdges
  numbersFrom : ∀ relation, s.numbersFrom relation <+: t.numbersFrom relation
  numbersTo : ∀ player, s.numbersTo player <+: t.numbersTo player

theorem Extends.refl (s : Store) : s.Extends s :=
  ⟨.refl _, fun _ _ h => h, fun _ _ h => h, List.prefix_rfl, fun _ => List.prefix_rfl,
    fun _ => List.prefix_rfl⟩

theorem Extends.of_eq {s t : Store} (hlabels : t.labels = s.labels)
    (howner : t.attributesByOwner = s.attributesByOwner)
    (howned : t.ownersByAttribute = s.ownersByAttribute) (hedges : t.roleEdges = s.roleEdges)
    (hrelation : t.edgesByRelation = s.edgesByRelation)
    (hplayer : t.edgesByPlayer = s.edgesByPlayer) : s.Extends t := by
  refine ⟨hlabels ▸ .refl _, ?_, ?_, ?_, ?_, ?_⟩ <;>
    simp [Store.attributes, Store.owners, Store.numbersFrom, Store.numbersTo, howner, howned,
      hedges, hrelation, hplayer]

theorem Extends.trans {s t u : Store} (h : s.Extends t) (k : t.Extends u) : s.Extends u :=
  ⟨h.labels.trans k.labels,
    fun owner owned ho => k.attributes owner owned (h.attributes owner owned ho),
    fun owned owner ho => k.owners owned owner (h.owners owned owner ho),
    h.roleEdges.trans k.roleEdges,
    fun relation => (h.numbersFrom relation).trans (k.numbersFrom relation),
    fun player => (h.numbersTo player).trans (k.numbersTo player)⟩

theorem Extends.mem_edgesFrom {s t : Store} (h : s.Extends t) {relation : ConceptId}
    {edge : RoleEdge} (hedge : edge ∈ s.edgesFrom relation) : edge ∈ t.edgesFrom relation := by
  obtain ⟨n, hn, hedge⟩ := List.mem_filterMap.1 hedge
  exact List.mem_filterMap.2
    ⟨n, (h.numbersFrom relation).subset hn, getElem?_of_prefix h.roleEdges hedge⟩

theorem Extends.mem_edgesTo {s t : Store} (h : s.Extends t) {player : ConceptId} {edge : RoleEdge}
    (hedge : edge ∈ s.edgesTo player) : edge ∈ t.edgesTo player := by
  obtain ⟨n, hn, hedge⟩ := List.mem_filterMap.1 hedge
  exact List.mem_filterMap.2
    ⟨n, (h.numbersTo player).subset hn, getElem?_of_prefix h.roleEdges hedge⟩

theorem attributes_withHas (s : Store) (owner owned a : ConceptId) :
    (s.withHas owner owned).attributes a =
      if owner = a then (s.attributes owner).insert owned else s.attributes a := by
  simp only [attributes, withHas, SortedMap.get?_update]
  split <;> rfl

theorem owners_withHas (s : Store) (owner owned a : ConceptId) :
    (s.withHas owner owned).owners a =
      if owned = a then (s.owners owned).insert owner else s.owners a := by
  simp only [owners, withHas, SortedMap.get?_update]
  split <;> rfl

theorem numbersFrom_withRoleEdge (s : Store) (edge : RoleEdge) (relation : ConceptId) :
    (s.withRoleEdge edge).numbersFrom relation =
      if edge.relation = relation then s.numbersFrom edge.relation ++ [s.roleEdges.length]
      else s.numbersFrom relation := by
  simp only [numbersFrom, withRoleEdge, SortedMap.get?_update]
  split <;> rfl

theorem numbersTo_withRoleEdge (s : Store) (edge : RoleEdge) (player : ConceptId) :
    (s.withRoleEdge edge).numbersTo player =
      if edge.player = player then s.numbersTo edge.player ++ [s.roleEdges.length]
      else s.numbersTo player := by
  simp only [numbersTo, withRoleEdge, SortedMap.get?_update]
  split <;> rfl

theorem getElem?_withRoleEdge (s : Store) (edge : RoleEdge) :
    (s.withRoleEdge edge).roleEdges[s.roleEdges.length]? = some edge := by
  simp [withRoleEdge]

theorem owns_withHas (s : Store) (owner owned : ConceptId) :
    (s.withHas owner owned).Owns owner owned := by
  simp [Owns, attributes_withHas, owners_withHas]

theorem extends_withHas (s : Store) (owner owned : ConceptId) :
    s.Extends (s.withHas owner owned) := by
  refine ⟨.refl _, fun a b hb => ?_, fun a b hb => ?_, List.prefix_rfl,
    fun _ => List.prefix_rfl, fun _ => List.prefix_rfl⟩
  · rw [attributes_withHas]
    split
    · rename_i h
      exact SortedSet.mem_insert.2 (Or.inr (h ▸ hb))
    · exact hb
  · rw [owners_withHas]
    split
    · rename_i h
      exact SortedSet.mem_insert.2 (Or.inr (h ▸ hb))
    · exact hb

theorem extends_withRoleEdge (s : Store) (edge : RoleEdge) : s.Extends (s.withRoleEdge edge) := by
  refine ⟨.refl _, fun _ _ h => h, fun _ _ h => h, List.prefix_append .., fun relation => ?_,
    fun player => ?_⟩
  · rw [numbersFrom_withRoleEdge]
    split
    · rename_i h
      exact h ▸ List.prefix_append ..
    · exact List.prefix_rfl
  · rw [numbersTo_withRoleEdge]
    split
    · rename_i h
      exact h ▸ List.prefix_append ..
    · exact List.prefix_rfl

theorem Grows.extends {s t : Store} (h : s.Grows t) : s.Extends t := by
  cases h with
  | meetLabel l => exact { Extends.refl s with labels := s.labels.within_intern l }
  | addType => exact .of_eq rfl rfl rfl rfl rfl rfl
  | extendType =>
    rw [withTypeInfo]
    split <;> exact .of_eq rfl rfl rfl rfl rfl rfl
  | addMember => exact .of_eq rfl rfl rfl rfl rfl rfl
  | addAttribute => exact .of_eq rfl rfl rfl rfl rfl rfl
  | addHas => exact extends_withHas s _ _
  | addRoleEdge => exact extends_withRoleEdge s _

theorem Evolves.extends {s t : Store} (h : s.Evolves t) : s.Extends t :=
  h.induction (fun _ _ hgrows hs => hs.trans hgrows.extends) (.refl s)

theorem Extends.owns {s t : Store} (h : s.Extends t) {owner owned : ConceptId}
    (ho : s.Owns owner owned) : t.Owns owner owned :=
  ⟨h.attributes _ _ ho.1, h.owners _ _ ho.2⟩

theorem Extends.hasEdge {s t : Store} (h : s.Extends t) {relation player : ConceptId}
    {role : Option Label} (he : s.HasEdge relation role player) :
    t.HasEdge relation role player := by
  obtain ⟨⟨relation, id, player⟩, hfrom, hto, rfl, rfl, hrole⟩ := he
  refine ⟨_, h.mem_edgesFrom hfrom, h.mem_edgesTo hto, rfl, rfl, ?_⟩
  dsimp only at hrole ⊢
  cases hrole with
  | none => exact .none
  | some hlabel => exact .some (h.labels _ _ hlabel)

/-- Every role edge is found from both of its ends. -/
structure EdgesIndexed (s : Store) : Prop where
  edgesFrom : ∀ edge ∈ s.roleEdges, edge ∈ s.edgesFrom edge.relation
  edgesTo : ∀ edge ∈ s.roleEdges, edge ∈ s.edgesTo edge.player

theorem EdgesIndexed.withRoleEdge {s : Store} (h : s.EdgesIndexed) (edge : RoleEdge) :
    (s.withRoleEdge edge).EdgesIndexed := by
  have hextends := extends_withRoleEdge s edge
  refine ⟨fun e he => ?_, fun e he => ?_⟩
  · rcases List.mem_append.1 he with he | he
    · exact hextends.mem_edgesFrom (h.edgesFrom e he)
    · rw [List.mem_singleton.1 he]
      refine List.mem_filterMap.2 ⟨s.roleEdges.length, ?_, getElem?_withRoleEdge s edge⟩
      rw [numbersFrom_withRoleEdge, if_pos rfl]
      exact List.mem_append_right _ List.mem_cons_self
  · rcases List.mem_append.1 he with he | he
    · exact hextends.mem_edgesTo (h.edgesTo e he)
    · rw [List.mem_singleton.1 he]
      refine List.mem_filterMap.2 ⟨s.roleEdges.length, ?_, getElem?_withRoleEdge s edge⟩
      rw [numbersTo_withRoleEdge, if_pos rfl]
      exact List.mem_append_right _ List.mem_cons_self

theorem Grows.edgesIndexed {s t : Store} (h : s.Grows t) (hs : s.EdgesIndexed) :
    t.EdgesIndexed := by
  cases h with
  | meetLabel => exact ⟨hs.edgesFrom, hs.edgesTo⟩
  | addType => exact ⟨hs.edgesFrom, hs.edgesTo⟩
  | extendType =>
    rw [withTypeInfo]
    split <;> exact ⟨hs.edgesFrom, hs.edgesTo⟩
  | addMember => exact ⟨hs.edgesFrom, hs.edgesTo⟩
  | addAttribute => exact ⟨hs.edgesFrom, hs.edgesTo⟩
  | addHas => exact ⟨hs.edgesFrom, hs.edgesTo⟩
  | addRoleEdge => exact hs.withRoleEdge _

theorem Reachable.edgesIndexed {s : Store} (h : s.Reachable) : s.EdgesIndexed :=
  h.induction ⟨fun _ h => absurd h List.not_mem_nil, fun _ h => absurd h List.not_mem_nil⟩
    fun _ _ hgrows hs => hgrows.edgesIndexed hs

theorem labels_putRoleEdge (s : Store) (edge : RoleEdge) :
    (s.putRoleEdge edge).labels = s.labels := by
  rw [putRoleEdge]
  split <;> rfl

theorem EdgesIndexed.mem_putRoleEdge {s : Store} (h : s.EdgesIndexed) (edge : RoleEdge) :
    edge ∈ (s.putRoleEdge edge).edgesFrom edge.relation ∧
      edge ∈ (s.putRoleEdge edge).edgesTo edge.player := by
  have hindexed : (s.putRoleEdge edge).EdgesIndexed ∧ edge ∈ (s.putRoleEdge edge).roleEdges := by
    rw [putRoleEdge]
    split
    · rename_i hedge
      exact ⟨h, hedge⟩
    · exact ⟨h.withRoleEdge edge, List.mem_append_right _ List.mem_cons_self⟩
  exact ⟨hindexed.1.edgesFrom edge hindexed.2, hindexed.1.edgesTo edge hindexed.2⟩

theorem owns_of_addHas {s t : Store} {owner owned : ConceptId}
    (h : (addHas owner owned).run.run s = (.ok ⟨⟩, t)) : t.Owns owner owned := by
  have hrun := triple_iff_run.1 (addHas_spec s owner owned) s rfl
  rw [h] at hrun
  rw [hrun.1]
  exact owns_withHas s owner owned

theorem hasEdge_of_addRolePlayer {s t : Store} (hs : s.EdgesIndexed) {relation player : ConceptId}
    {role : Option Label} (h : (addRolePlayer relation role player).run.run s = (.ok ⟨⟩, t)) :
    t.HasEdge relation role player := by
  have hrun := triple_iff_run.1 (addRolePlayer_spec s relation role player) s rfl
  rw [h] at hrun
  obtain ⟨-, -, rfl⟩ := hrun
  have hmet : (s.withRole role).2.EdgesIndexed ∧
      Option.Rel (fun id l => (s.withRole role).2.labels.label? id = some l)
        (s.withRole role).1 role := by
    cases role with
    | none => exact ⟨hs, .none⟩
    | some l =>
      exact ⟨(Grows.meetLabel l).edgesIndexed hs,
        .some (LabelTable.label?_eq_some_iff.2 (idOf?_withLabel s l))⟩
  have hedge := hmet.1.mem_putRoleEdge ⟨relation, (s.withRole role).1, player⟩
  refine ⟨_, hedge.1, hedge.2, rfl, rfl, ?_⟩
  rw [labels_putRoleEdge]
  exact hmet.2

end GraphQuery.Store
