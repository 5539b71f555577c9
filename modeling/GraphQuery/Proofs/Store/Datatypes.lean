import GraphQuery.Proofs.Store.Consistency

/-!
# Datatypes and instances

A store conforms to its datatypes if each type with a datatype has only instances with values of
that datatype. What creates an instance checks this. What gives a datatype to a type that is there
does not look at the instances that the type has, so it can break it. Main statement: the store that
calls leave conforms exactly if no call did (`after_conforms_iff`).
-/

namespace GraphQuery.Store

variable {s t : Store} {id type : ConceptId}

/-- All instances of the type have values of the datatype. -/
def HoldsOnly (s : Store) (type : ConceptId) (v : ValueType) : Prop :=
  ∀ id ∈ s.members type, (s.value? id).map Value.type = some v

/-- The instances of each type with a datatype have values of it. -/
def Conforms (s : Store) : Prop :=
  ∀ type v, s.valueType? type = some v → s.HoldsOnly type v

/-- Where the call gives a datatype to a type that is there, all instances of the type have values of
it. A call that is refused gives nothing. -/
def Operation.Respects (s : Store) : Operation → Prop
  | defineType l superType valueType =>
    ((Store.defineType l superType valueType).run.run s).1.isOk →
      ∀ type, s.typeWithLabel? l = some type → ∀ v ∈ valueType, s.HoldsOnly type v
  | _ => True

/-- Each of the calls on a store respects the instances that are there when it is made. -/
def AllRespect (s : Store) : List Operation → Prop
  | [] => True
  | op :: ops => op.Respects s ∧ AllRespect (op.run s) ops

theorem holdsOnly_congr (hconcepts : t.concepts = s.concepts)
    (hmembers : t.membersByType = s.membersByType) (v : ValueType) :
    t.HoldsOnly type v ↔ s.HoldsOnly type v := by
  simp only [HoldsOnly, members, value?, concept?, hconcepts, hmembers]

theorem conforms_congr (hconcepts : t.concepts = s.concepts)
    (hmembers : t.membersByType = s.membersByType) : t.Conforms ↔ s.Conforms := by
  simp only [Conforms, holdsOnly_congr hconcepts hmembers, valueType?, concept?, hconcepts]

theorem conforms_withRole (role : Option Label) : (s.withRole role).2.Conforms ↔ s.Conforms := by
  cases role <;> exact conforms_congr rfl rfl

theorem conforms_putRoleEdge (edge : RoleEdge) : (s.putRoleEdge edge).Conforms ↔ s.Conforms := by
  rw [putRoleEdge]
  split
  · rfl
  · exact conforms_congr rfl rfl

theorem conforms_withType (hs : s.MembersIndexed) (label : LabelId) (superType : Option ConceptId)
    (valueType : Option ValueType) :
    (s.withType label superType valueType).Conforms ↔ s.Conforms := by
  have hconcept (id : ConceptId) := concept?_push
    (t := s.withType label superType valueType) (.type label superType valueType) rfl id
  have hholds (a : ConceptId) (v : ValueType) :
      (s.withType label superType valueType).HoldsOnly a v ↔ s.HoldsOnly a v := by
    refine forall₂_congr fun id _ => ?_
    by_cases hid : id = s.nextId
    · simp [value?, hconcept, hid, concept?_nextId]
    · simp [value?, hconcept, hid]
  -- The new type has no instances yet.
  have hnew (v : ValueType) : s.HoldsOnly s.nextId v := by
    intro id hid
    obtain ⟨value, hmember⟩ := hs.index.1 hid
    obtain ⟨label, superType, htype⟩ := hs.type hmember
    exact absurd rfl (ne_nextId htype)
  refine forall₂_congr fun a v => ?_
  rw [hholds]
  by_cases ha : a = s.nextId
  · simp [ha, hnew]
  · simp [valueType?, hconcept, ha]

/-- A new instance with a value of the datatype of its type, if that has one, breaks nothing. -/
theorem conforms_withMember (hs : s.MembersIndexed) {label : LabelId}
    {valueType : Option ValueType} {value : Option Value} (htype : s.IsType type label valueType)
    (hvalue : ∀ v ∈ valueType, value.map Value.type = some v) :
    (s.withMember type value).Conforms ↔ s.Conforms := by
  have hconcept (id : ConceptId) := concept?_push
    (t := s.withMember type value) (.member type value) rfl id
  have hvalueType (a : ConceptId) : (s.withMember type value).valueType? a = s.valueType? a := by
    by_cases ha : a = s.nextId
    · simp [valueType?, hconcept, ha, concept?_nextId]
    · simp [valueType?, hconcept, ha]
  have hvalue? (a id : ConceptId) (hid : id ∈ s.members a) :
      (s.withMember type value).value? id = s.value? id := by
    obtain ⟨w, hmember⟩ := hs.index.1 hid
    simp [value?, hconcept, ne_nextId hmember]
  have hnew : (s.withMember type value).value? s.nextId = value := by simp [value?, hconcept]
  refine forall₂_congr fun a v => ?_
  rw [hvalueType]
  refine imp_congr_right fun ha => ?_
  simp only [HoldsOnly, members_withMember]
  split
  case isTrue heq =>
    subst heq
    have hv : value.map Value.type = some v := hvalue v (htype.valueType?_eq.symm.trans ha)
    simp only [SortedSet.mem_insert, forall_eq_or_imp, hnew, hv, true_and]
    exact forall₂_congr fun id hid => by rw [hvalue? _ id hid]
  case isFalse => exact forall₂_congr fun id hid => by rw [hvalue? _ id hid]

theorem members_withTypeInfo (superType : Option ConceptId) (more : Option ValueType)
    (a : ConceptId) : (s.withTypeInfo type superType more).members a = s.members a := by
  rw [withTypeInfo]
  split <;> rfl

/-- A datatype that is given to a type is one for the instances that the type has. -/
theorem conforms_withTypeInfo {label : LabelId} {valueType : Option ValueType}
    (htype : s.IsType type label valueType) (superType : Option ConceptId)
    {more : Option ValueType}
    (hmore : more.isSome → (s.valueType? type).isSome → s.valueType? type = more) :
    (s.withTypeInfo type superType more).Conforms ↔
      s.Conforms ∧ ∀ v ∈ more, s.HoldsOnly type v := by
  have hvalueType := htype.valueType?_eq
  obtain ⟨known, hknown⟩ := htype
  have hconcept := concept?_withTypeInfo hknown superType more
  have hvalue? (id : ConceptId) :
      (s.withTypeInfo type superType more).value? id = s.value? id := by
    by_cases hid : id = type
    · simp [value?, hconcept, hid, hknown]
    · simp [value?, hconcept, hid]
  have hholds (a : ConceptId) (v : ValueType) :
      (s.withTypeInfo type superType more).HoldsOnly a v ↔ s.HoldsOnly a v := by
    simp only [HoldsOnly, members_withTypeInfo, hvalue?]
  have hother (a : ConceptId) (ha : a ≠ type) :
      (s.withTypeInfo type superType more).valueType? a = s.valueType? a := by
    simp [valueType?, hconcept, ha]
  have hself : (s.withTypeInfo type superType more).valueType? type = (valueType <|> more) := by
    simp [valueType?, hconcept]
  rw [hvalueType] at hmore
  simp only [Conforms, hholds]
  constructor
  · intro h
    refine ⟨fun a v ha => h a v ?_, fun v hv => h type v ?_⟩
    · by_cases hat : a = type
      · rw [hat, hself]
        rw [hat, hvalueType] at ha
        rw [ha]
        rfl
      · rw [hother a hat, ha]
    · rw [hself]
      cases valueType with
      | none => exact hv
      | some w => exact (hmore (Option.isSome_of_mem hv) rfl).trans hv
  · rintro ⟨h, hnew⟩ a v ha
    by_cases hat : a = type
    · rw [hat, hself, Option.orElse_eq_some] at ha
      rw [hat]
      rcases ha with ha | ⟨-, ha⟩
      · exact h type v (hvalueType.trans ha)
      · exact hnew v ha
    · rw [hother a hat] at ha
      exact h a v ha

theorem conforms_run_defineType (h : s.Reachable) (l : Label) (superType : Option ConceptId)
    (valueType : Option ValueType) :
    ((Operation.defineType l superType valueType).run s).Conforms ↔
      s.Conforms ∧ (Operation.defineType l superType valueType).Respects s := by
  have hmet : (s.withLabel l).2.Conforms ↔ s.Conforms := conforms_congr rfl rfl
  have hrun := triple_iff_run.1 (defineType_spec s l superType valueType) s rfl
  simp only [Operation.run, Operation.Respects, h.typesIndexed.typeWithLabel?_eq]
  rcases hresult : (defineType l superType valueType).run.run s with ⟨e | id, t⟩
  case error =>
    rw [hresult] at hrun
    obtain rfl : t = (s.withLabel l).2 := hrun
    simp [hmet, Except.isOk, Except.toBool]
  case ok =>
    rw [hresult] at hrun
    obtain ⟨-, ⟨hid, rfl, -, hvalue⟩ | ⟨hnew, -, rfl⟩⟩ := hrun
    · obtain ⟨known, houtline⟩ := h.typesIndexed.index.1 hid
      obtain ⟨knownValue, hconcept⟩ := outline?_eq_type_iff.1 houtline
      have htype : (s.withLabel l).2.IsType id (s.withLabel l).1 knownValue := ⟨known, hconcept⟩
      have hid : s.typesByLabel.get? (s.withLabel l).1 = some id := hid
      rw [conforms_withTypeInfo htype superType hvalue, hmet, hid]
      simp only [holdsOnly_congr (t := (s.withLabel l).2) (s := s) rfl rfl]
      simp [Except.isOk, Except.toBool]
    · have hnew : s.typesByLabel.get? (s.withLabel l).1 = none := hnew
      have hmembers : (s.withLabel l).2.MembersIndexed :=
        (Grows.meetLabel l).membersIndexed h.membersIndexed
      rw [conforms_withType hmembers, hmet, hnew]
      simp

/-- A call keeps a store conforming exactly if it respects the instances that are there, and no call
repairs a store that does not conform. -/
theorem conforms_run_iff (h : s.Reachable) (op : Operation) :
    (op.run s).Conforms ↔ s.Conforms ∧ op.Respects s := by
  cases op with
  | defineType l superType valueType => exact conforms_run_defineType h l superType valueType
  | insertMember type =>
    simp only [Operation.Respects, and_true]
    refine snd_run_of_triple (R := fun t => t.Conforms ↔ s.Conforms) (insertMember_spec s type)
      ?_ ?_
    · rintro id t ⟨-, rfl, -, label, htype⟩
      exact conforms_withMember h.membersIndexed htype (by simp)
    · rintro e t rfl
      rfl
  | putAttribute type value =>
    simp only [Operation.Respects, and_true]
    refine snd_run_of_triple (R := fun t => t.Conforms ↔ s.Conforms)
      (putAttribute_spec s type value) ?_ ?_
    · rintro id t ⟨-, ⟨label, valueType, htype, hvalue⟩, ⟨-, rfl⟩ | ⟨-, -, rfl⟩⟩
      · rfl
      · have hmember : (s.withMember type (some value)).Conforms ↔ s.Conforms :=
          conforms_withMember h.membersIndexed htype fun v hv => by simp [hvalue v hv]
        exact (conforms_congr rfl rfl).trans hmember
    · rintro e t rfl
      rfl
  | addHas owner owned =>
    simp only [Operation.Respects, and_true]
    refine snd_run_of_triple (R := fun t => t.Conforms ↔ s.Conforms) (addHas_spec s owner owned)
      ?_ ?_
    · rintro - t ⟨rfl, -⟩
      exact conforms_congr rfl rfl
    · rintro e t rfl
      rfl
  | addRolePlayer relation role player =>
    simp only [Operation.Respects, and_true]
    refine snd_run_of_triple (R := fun t => t.Conforms ↔ s.Conforms)
      (addRolePlayer_spec s relation role player) ?_ ?_
    · rintro - t ⟨-, -, rfl⟩
      rw [conforms_putRoleEdge, conforms_withRole]
    · rintro e t (rfl | rfl)
      · rfl
      · exact conforms_withRole role

theorem conforms_runAll_iff (h : s.Reachable) (ops : List Operation) :
    (s.runAll ops).Conforms ↔ s.Conforms ∧ s.AllRespect ops := by
  induction ops generalizing s with
  | nil => simp [runAll, AllRespect]
  | cons op ops ih =>
    have hrest := ih (h.trans (op.evolves s))
    rw [conforms_run_iff h op, and_assoc] at hrest
    exact hrest

/-- After any calls the instances of each type with a datatype have values of it, exactly if each
call that gave a datatype to a type found only instances with values of it. -/
theorem after_conforms_iff (ops : List Operation) :
    (after ops).Conforms ↔ empty.AllRespect ops := by
  have hempty : empty.Conforms := fun type v hv => by cases hv
  rw [after, conforms_runAll_iff (Evolves.refl empty)]
  exact and_iff_right hempty

/-- A person without a value is there when persons get a datatype. -/
theorem not_after_conforms_person :
    ¬(after [.defineType ⟨"person"⟩ none none, .insertMember ⟨0⟩,
      .defineType ⟨"person"⟩ none (some .string)]).Conforms := by
  intro h
  have hvalue := h ⟨0⟩ .string rfl ⟨1⟩ (by decide)
  cases hvalue

end GraphQuery.Store
