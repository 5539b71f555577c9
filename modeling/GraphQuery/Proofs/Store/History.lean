import GraphQuery.Proofs.Store.Adjacency
import GraphQuery.Proofs.Collection.Lists

/-!
# The history of a store

The role edges of a store are what the calls that led to it said of players and were not refused
for, each once and in the order in which it was first said.
-/

namespace GraphQuery.Store

variable {s t : Store}

/-- That a concept plays a role in a relation, with the label of the role if there is one. -/
structure Playing where
  relation : ConceptId
  role : Option Label
  player : ConceptId
  deriving DecidableEq

/-- What the role edges say, in the order in which they were added. -/
def playings (s : Store) : List Playing :=
  s.roleEdges.map fun edge => ⟨edge.relation, edge.role.bind s.labels.label?, edge.player⟩

/-- What a call says of a player, unless it is refused. -/
def Operation.playing? (s : Store) : Operation → Option Playing
  | addRolePlayer relation role player =>
    if ((Store.addRolePlayer relation role player).run.run s).1.isOk then
      some ⟨relation, role, player⟩
    else none
  | _ => none

/-- The store that calls on a store leave. -/
def runAll (s : Store) (ops : List Operation) : Store := ops.foldl Operation.run s

/-- What calls on a store say of players, in the order of the calls. -/
def playingsOf (s : Store) : List Operation → List Playing
  | [] => []
  | op :: ops => (op.playing? s).toList ++ playingsOf (op.run s) ops

theorem playings_eq (hs : s.RoleEdgesIndexed) (hlabels : s.labels.Within t.labels)
    (hedges : t.roleEdges = s.roleEdges) : t.playings = s.playings := by
  rw [playings, playings, hedges]
  refine List.map_congr_left fun edge hedge => ?_
  have hrole : edge.role.bind t.labels.label? = edge.role.bind s.labels.label? := by
    cases h : edge.role with
    | none => rfl
    | some id =>
      obtain ⟨l, hl⟩ := hs.role edge hedge id h
      simp [hl, hlabels _ _ hl]
  rw [hrole]

/-- A role edge is there exactly if the store says of its player what the edge says. -/
theorem mem_playings_iff (hs : s.RoleEdgesIndexed) {relation player : ConceptId}
    {id : Option LabelId} {role : Option Label}
    (hrole : Option.Rel (fun id l => s.labels.label? id = some l) id role) :
    ⟨relation, role, player⟩ ∈ s.playings ↔ ⟨relation, id, player⟩ ∈ s.roleEdges := by
  have hbind : ∀ edge ∈ s.roleEdges, edge.role.bind s.labels.label? = role ↔ edge.role = id := by
    rintro ⟨relation, known, player⟩ hedge
    have hknown := hs.role _ hedge
    cases hrole with
    | none =>
      cases known with
      | none => simp
      | some known =>
        obtain ⟨l, hl⟩ := hknown known rfl
        simp [hl]
    | some hlabel =>
      cases known with
      | none => simp
      | some known =>
        rw [LabelTable.label?_eq_some_iff] at hlabel
        simp only [Option.bind_some, LabelTable.label?_eq_some_iff, hlabel]
        exact eq_comm
  rw [playings, List.mem_map]
  constructor
  · rintro ⟨⟨r, known, p⟩, hedge, heq⟩
    obtain ⟨rfl, hid, rfl⟩ := Playing.mk.inj heq
    have hsame : known = id := (hbind _ hedge).1 hid
    exact hsame ▸ hedge
  · intro hedge
    exact ⟨_, hedge, by rw [(hbind _ hedge).2 rfl]⟩

theorem roleEdges_withTypeInfo (type : ConceptId) (superType : Option ConceptId)
    (valueType : Option ValueType) :
    (s.withTypeInfo type superType valueType).roleEdges = s.roleEdges := by
  rw [withTypeInfo]
  split <;> rfl

theorem Operation.roleEdges_run (s : Store) {op : Operation}
    (h : ∀ relation role player, op ≠ .addRolePlayer relation role player) :
    (op.run s).roleEdges = s.roleEdges := by
  cases op with
  | defineType l superType valueType =>
    refine snd_run_of_triple (R := fun t => t.roleEdges = s.roleEdges)
      (defineType_spec s l superType valueType) ?_ ?_
    · rintro id t ⟨-, ⟨-, rfl, -⟩ | ⟨-, -, rfl⟩⟩
      · exact roleEdges_withTypeInfo _ _ _
      · rfl
    · rintro e t rfl
      rfl
  | insertMember type =>
    refine snd_run_of_triple (R := fun t => t.roleEdges = s.roleEdges)
      (insertMember_spec s type) ?_ ?_
    · rintro id t ⟨-, rfl, -⟩
      rfl
    · rintro e t rfl
      rfl
  | putAttribute type value =>
    refine snd_run_of_triple (R := fun t => t.roleEdges = s.roleEdges)
      (putAttribute_spec s type value) ?_ ?_
    · rintro id t ⟨-, -, ⟨-, rfl⟩ | ⟨-, -, rfl⟩⟩ <;> rfl
    · rintro e t rfl
      rfl
  | addHas owner owned =>
    refine snd_run_of_triple (R := fun t => t.roleEdges = s.roleEdges)
      (addHas_spec s owner owned) ?_ ?_
    · rintro - t ⟨rfl, -⟩
      rfl
    · rintro e t rfl
      rfl
  | addRolePlayer relation role player => exact absurd rfl (h relation role player)

theorem roleEdges_withRole (s : Store) (role : Option Label) :
    (s.withRole role).2.roleEdges = s.roleEdges := by
  cases role <;> rfl

theorem RoleEdgesIndexed.withRole (hs : s.RoleEdgesIndexed) (role : Option Label) :
    (s.withRole role).2.RoleEdgesIndexed := by
  cases role with
  | none => exact hs
  | some l => exact (Grows.meetLabel l).roleEdgesIndexed hs

theorem label?_withRole (s : Store) (role : Option Label) :
    Option.Rel (fun id l => (s.withRole role).2.labels.label? id = some l) (s.withRole role).1
      role := by
  cases role with
  | none => exact .none
  | some l => exact .some (LabelTable.label?_eq_some_iff.2 (idOf?_withLabel s l))

theorem labels_withRole (s : Store) (role : Option Label) :
    s.labels.Within (s.withRole role).2.labels := by
  cases role with
  | none => exact .refl _
  | some l => exact s.labels.within_intern l

theorem playings_putRoleEdge (hs : s.RoleEdgesIndexed) {relation player : ConceptId}
    {id : Option LabelId} {role : Option Label}
    (hrole : Option.Rel (fun id l => s.labels.label? id = some l) id role) :
    (s.putRoleEdge ⟨relation, id, player⟩).playings =
      if ⟨relation, role, player⟩ ∈ s.playings then s.playings
      else s.playings ++ [⟨relation, role, player⟩] := by
  simp only [mem_playings_iff hs hrole, putRoleEdge]
  split
  · rfl
  · have hbind : id.bind s.labels.label? = role := by
      cases hrole with
      | none => rfl
      | some hlabel => exact hlabel
    simp [playings, withRoleEdge, hbind]

/-- A call adds what it says unless that has been said before. -/
theorem playings_run (hs : s.RoleEdgesIndexed) {said : List Playing}
    (hsaid : s.playings = said.eraseDups) (op : Operation) :
    (op.run s).playings = (said ++ (op.playing? s).toList).eraseDups := by
  have hsame (hnone : op.playing? s = none) (hedges : (op.run s).roleEdges = s.roleEdges) :
      (op.run s).playings = (said ++ (op.playing? s).toList).eraseDups := by
    rw [hnone, playings_eq hs (op.evolves s).extends.labels hedges, hsaid]
    simp
  cases op with
  | addRolePlayer relation role player =>
    have hrun := triple_iff_run.1 (addRolePlayer_spec s relation role player) s rfl
    rcases hresult : (addRolePlayer relation role player).run.run s with ⟨e | ⟨⟩, t⟩
    case error =>
      refine hsame (by rw [Operation.playing?, hresult]; rfl) ?_
      rw [Operation.run, hresult]
      rw [hresult] at hrun
      rcases hrun with rfl | rfl
      · rfl
      · exact roleEdges_withRole s role
    case ok =>
      have hplaying : (Operation.addRolePlayer relation role player).playing? s =
          some ⟨relation, role, player⟩ := by
        rw [Operation.playing?, hresult]
        rfl
      have hmet : (s.withRole role).2.playings = said.eraseDups := by
        rw [playings_eq hs (labels_withRole s role) (roleEdges_withRole s role), hsaid]
      rw [hplaying, Operation.run, hresult]
      rw [hresult] at hrun
      obtain ⟨-, -, rfl⟩ := hrun
      rw [playings_putRoleEdge (hs.withRole role) (label?_withRole s role), hmet,
        Option.toList_some, eraseDups_concat]
      simp only [List.mem_eraseDups, List.contains_iff_mem]
  | defineType => exact hsame rfl (Operation.roleEdges_run s (by simp))
  | insertMember => exact hsame rfl (Operation.roleEdges_run s (by simp))
  | putAttribute => exact hsame rfl (Operation.roleEdges_run s (by simp))
  | addHas => exact hsame rfl (Operation.roleEdges_run s (by simp))

theorem evolves_runAll (s : Store) (ops : List Operation) : s.Evolves (s.runAll ops) := by
  induction ops generalizing s with
  | nil => exact .refl s
  | cons op ops ih => exact (op.evolves s).trans (ih (op.run s))

theorem Reachable.runAll (h : s.Reachable) (ops : List Operation) : (s.runAll ops).Reachable :=
  h.trans (evolves_runAll s ops)

theorem playings_runAll (h : s.Reachable) {said : List Playing}
    (hsaid : s.playings = said.eraseDups) (ops : List Operation) :
    (s.runAll ops).playings = (said ++ s.playingsOf ops).eraseDups := by
  induction ops generalizing s said with
  | nil => simpa [runAll, playingsOf] using hsaid
  | cons op ops ih =>
    have hop := playings_run h.roleEdgesIndexed hsaid op
    rw [playingsOf, ← List.append_assoc]
    exact ih (h.trans (op.evolves s)) hop

end GraphQuery.Store
