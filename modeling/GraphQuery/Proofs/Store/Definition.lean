import GraphQuery.Proofs.Store.Refusal

/-!
# Defining types

A call that defines a type may give it a supertype and a datatype. It is accepted if the type with
the label, if there is one, admits what the call gives (`Accepts`). Then nothing changes but this
one type (`DiffersAt`), of which is known what was known before together with what the call gives
(`told`).
-/

namespace GraphQuery

/-- Two sources agree if they say the same as far as both say something. -/
def Agree {α : Type} (x y : Option α) : Prop := ∀ a ∈ x, ∀ b ∈ y, a = b

theorem agree_iff {α : Type} {x y : Option α} : Agree x y ↔ (y.isSome → x.isSome → x = y) := by
  cases x <;> cases y <;> simp [Agree]

def Description.IsType : Description → Prop
  | .type .. => True
  | .member .. => False

/-- What can be said of a type besides its label. -/
structure TypeInfo where
  superType : Option ConceptId
  valueType : Option ValueType

namespace TypeInfo

/-- More can be said of a type of which something is known: no supertype but the one that it has,
hence none if it has none, and no datatype but the one that it has, if it has one. -/
structure Admits (known more : TypeInfo) : Prop where
  superType : more.superType.isSome → known.superType = more.superType
  valueType : Agree known.valueType more.valueType

/-- All that more says is known. -/
structure Knows (known more : TypeInfo) : Prop where
  superType : ∀ upper ∈ more.superType, known.superType = some upper
  valueType : ∀ v ∈ more.valueType, known.valueType = some v

/-- What is known of a type once more is said that it admits. -/
def join (known more : TypeInfo) : TypeInfo :=
  ⟨known.superType, known.valueType <|> more.valueType⟩

theorem Admits.superType_orElse {known more : TypeInfo} (h : known.Admits more) :
    (known.superType <|> more.superType) = known.superType := by
  obtain ⟨upper, v⟩ := more
  cases upper with
  | none => cases known.superType <;> rfl
  | some upper =>
    rw [h.superType rfl]
    rfl

theorem Admits.knows_join {known more : TypeInfo} (h : known.Admits more) :
    (known.join more).Knows more := by
  refine ⟨fun upper hupper => ?_, fun v hv => ?_⟩
  · exact (h.superType (Option.isSome_of_mem hupper)).trans hupper
  · rw [join]
    cases hk : known.valueType with
    | none => exact hv
    | some k => exact congrArg some (h.valueType k hk v hv)

theorem Knows.admits {known more : TypeInfo} (h : known.Knows more) : known.Admits more := by
  refine ⟨fun hsome => ?_, fun v hv w hw => ?_⟩
  · obtain ⟨upper, hupper⟩ := Option.isSome_iff_exists.1 hsome
    rw [h.superType upper hupper, hupper]
  · exact Option.some.inj (hv.symm.trans (h.valueType w hw))

theorem Knows.join_eq {known more : TypeInfo} (h : known.Knows more) : known.join more = known := by
  refine congrArg (TypeInfo.mk known.superType) ?_
  cases hv : more.valueType with
  | none => exact orElse_failure _
  | some v =>
    rw [h.valueType v hv]
    rfl

end TypeInfo

namespace Store

variable {s t u : Store} {id : ConceptId} {l : Label} {more : TypeInfo}

theorem exists_isType_iff :
    (∃ label valueType, s.IsType id label valueType) ↔ ∃ d ∈ s.described? id, d.IsType := by
  simp only [IsType, described?]
  rcases s.concept? id with _ | (_ | _) <;> simp [describe, Description.IsType]

/-- The number is in range and belongs to a type. -/
def NamesType (s : Store) (id : ConceptId) : Prop :=
  id.number < ConceptId.limit ∧ ∃ d ∈ s.described? id, d.IsType

theorem NamesType.isType (h : s.NamesType id) : ∃ label, s.IsType id label (s.valueType? id) := by
  obtain ⟨label, valueType, htype⟩ := exists_isType_iff.2 h.2
  exact ⟨label, htype.valueType?_eq ▸ htype⟩

def typeInfo (s : Store) (id : ConceptId) : TypeInfo := ⟨s.superType? id, s.valueType? id⟩

/-- The datatype of the supertype, which a new type takes over. -/
def inherited (s : Store) (more : TypeInfo) : Option ValueType := more.superType.bind s.valueType?

/-- The number of the type with a label, or the one that it gets when it is defined. -/
def numberFor (s : Store) (l : Label) : ConceptId := (s.typeWithLabel? l).getD s.nextId

/-- The call is not refused. -/
structure Accepts (s : Store) (l : Label) (more : TypeInfo) : Prop where
  superType : ∀ upper ∈ more.superType, s.NamesType upper
  known : ∀ id, s.typeWithLabel? l = some id → (s.typeInfo id).Admits more

/-- What is known of the type with a label after the call. -/
def told (s : Store) (l : Label) (more : TypeInfo) : TypeInfo :=
  match s.typeWithLabel? l with
  | some id => (s.typeInfo id).join more
  | none => ⟨more.superType, more.valueType <|> s.inherited more⟩

theorem numberFor_of_some (hid : s.typeWithLabel? l = some id) : s.numberFor l = id := by
  rw [numberFor, hid, Option.getD_some]

theorem told_of_some (hid : s.typeWithLabel? l = some id) (more : TypeInfo) :
    s.told l more = (s.typeInfo id).join more := by
  simp only [told, hid]

theorem told_of_none (hnew : s.typeWithLabel? l = none) (more : TypeInfo) :
    s.told l more = ⟨more.superType, more.valueType <|> s.inherited more⟩ := by
  simp only [told, hnew]

/-- What an accepted call says is known after it. -/
theorem Accepts.knows (h : s.Accepts l more) : (s.told l more).Knows more := by
  cases hid : s.typeWithLabel? l with
  | some id =>
    rw [told_of_some hid]
    exact (h.known id hid).knows_join
  | none =>
    rw [told_of_none hid]
    refine ⟨fun upper hupper => hupper, fun v hv => ?_⟩
    rw [Option.mem_def.1 hv]
    rfl

/-- Of the second store the same is read as of the first, but for one concept. -/
structure DiffersAt (s t : Store) (id : ConceptId) (d : Description) : Prop where
  indexed : t.Indexed
  described? : ∀ a, t.described? a = if a = id then some d else s.described? a
  attributes : ∀ owner, t.attributes owner = s.attributes owner
  playings : t.playings = s.playings

namespace DiffersAt

variable {d e : Description} {superType : Option ConceptId} {valueType : Option ValueType}

theorem trans (h : s.DiffersAt t id d) (k : t.DiffersAt u id e) : s.DiffersAt u id e where
  indexed := k.indexed
  described? a := by
    rw [k.described?]
    split
    · rfl
    · rename_i ha
      rw [h.described?, if_neg ha]
  attributes owner := (k.attributes owner).trans (h.attributes owner)
  playings := k.playings.trans h.playings

theorem alike (h : s.DiffersAt t id d) (k : s.DiffersAt u id d) : t.Alike u where
  left := h.indexed
  right := k.indexed
  described? a := (h.described? a).trans (k.described? a).symm
  attributes owner := (h.attributes owner).trans (k.attributes owner).symm
  playings := h.playings.trans k.playings.symm

theorem described?_self (h : s.DiffersAt t id d) : t.described? id = some d := by
  rw [h.described?, if_pos rfl]

theorem typeInfo_self (h : s.DiffersAt t id (.type l superType valueType)) :
    t.typeInfo id = ⟨superType, valueType⟩ := by
  rw [typeInfo, superType?_eq_bind, valueType?_eq_bind, h.described?_self]
  rfl

theorem typeWithLabel?_self (h : s.DiffersAt t id (.type l superType valueType)) :
    t.typeWithLabel? l = some id := by
  rw [h.indexed.consistent.typeWithLabel, label?_eq_bind, h.described?_self]
  rfl

theorem namesType (h : s.DiffersAt t id (.type l superType valueType)) {upper : ConceptId}
    (hupper : s.NamesType upper) : t.NamesType upper := by
  refine ⟨hupper.1, ?_⟩
  rw [h.described?]
  split
  · exact ⟨_, rfl, trivial⟩
  · exact hupper.2

end DiffersAt

theorem run_get (s : Store) : (get : StoreM Store).run.run s = (.ok s, s) := rfl

theorem run_checkRange {id : ConceptId} (h : id.number < ConceptId.limit) (s : Store) :
    (checkRange id).run.run s = (.ok ⟨⟩, s) := by
  rw [checkRange, if_pos h]
  rfl

theorem run_readType {label : LabelId} {valueType : Option ValueType}
    (h : s.IsType id label valueType) : (readType id).run.run s = (.ok (label, valueType), s) := by
  obtain ⟨superType, h⟩ := h
  rw [readType, run_bind_of_ok (run_get s), h]
  rfl

theorem run_extendType (l : Label) (id : ConceptId) (superType : Option ConceptId)
    (valueType : Option ValueType) (s : Store) :
    (extendType l id superType valueType).run.run s =
      if superType.isSome ∧ s.superType? id ≠ superType then (.error (.otherSuperType l), s)
      else if valueType.isSome ∧ (s.valueType? id).isSome ∧ s.valueType? id ≠ valueType then
        (.error (.otherDatatype l), s)
      else (.ok ⟨⟩, s.withTypeInfo id superType valueType) := by
  rw [extendType, run_bind_of_ok (run_get s)]
  dsimp only
  split
  · rfl
  · split <;> rfl

theorem run_defineType {superType : Option ConceptId} (h : ∀ upper ∈ superType, s.NamesType upper)
    (l : Label) (valueType : Option ValueType) :
    (defineType l superType valueType).run.run s =
      match (s.withLabel l).2.typesByLabel.get? (s.withLabel l).1 with
      | some id =>
        (extendType l id superType valueType >>= fun _ => pure id).run.run (s.withLabel l).2
      | none => (.ok s.nextId, (s.withLabel l).2.withType (s.withLabel l).1 superType
          (valueType <|> superType.bind s.valueType?)) := by
  have hmet : (modifyGet (·.withLabel l) : StoreM LabelId).run.run s =
      (.ok (s.withLabel l).1, (s.withLabel l).2) := rfl
  rw [defineType, run_bind_of_ok hmet]
  cases superType with
  | none =>
    simp only [Option.forM, pure_bind]
    rw [run_bind_of_ok (run_get _)]
    cases (s.withLabel l).2.typesByLabel.get? (s.withLabel l).1 <;> rfl
  | some upper =>
    obtain ⟨label, htype⟩ := (h upper rfl).isType
    have htype : (s.withLabel l).2.IsType upper label (s.valueType? upper) := htype
    simp only [Option.forM]
    rw [run_bind_of_ok (run_checkRange (h upper rfl).1 _)]
    simp only [pure_bind]
    rw [run_bind_of_ok (run_readType htype), run_bind_of_ok (run_get _)]
    cases (s.withLabel l).2.typesByLabel.get? (s.withLabel l).1 <;> rfl

theorem Reachable.of_defineType (h : s.Reachable) {superType : Option ConceptId}
    {valueType : Option ValueType} {r : Except StoreError ConceptId}
    (hrun : (defineType l superType valueType).run.run s = (r, t)) : t.Reachable := by
  have hevolves := (Operation.defineType l superType valueType).evolves s
  rw [Operation.run, hrun] at hevolves
  exact h.trans hevolves

theorem accepts_of_run (more : TypeInfo) (h : s.Reachable)
    (hrun : (defineType l more.superType more.valueType).run.run s = (.ok id, t)) :
    s.Accepts l more := by
  have hspec := triple_iff_run.1 (defineType_spec s l more.superType more.valueType) s rfl
  have hget := h.typesIndexed.typeWithLabel?_eq l
  rw [hrun] at hspec
  obtain ⟨hsuper, hfound⟩ := hspec
  refine ⟨fun upper hupper => ?_, fun type htype => ?_⟩
  · obtain ⟨hrange, label, value, htype⟩ := hsuper upper hupper
    have htype : s.IsType upper label value := htype
    exact ⟨hrange, exists_isType_iff.1 ⟨label, value, htype⟩⟩
  · obtain ⟨hid, -, hupper, hvalue⟩ | ⟨hnew, -⟩ := hfound
    · have hsame : some type = some id := (htype.symm.trans hget).trans hid
      cases hsame
      exact ⟨hupper, agree_iff.2 hvalue⟩
    · cases (htype.symm.trans hget).trans hnew

theorem playings_withTypeInfo (s : Store) (type : ConceptId) (superType : Option ConceptId)
    (valueType : Option ValueType) :
    (s.withTypeInfo type superType valueType).playings = s.playings := by
  rw [playings, playings, roleEdges_withTypeInfo, labels_withTypeInfo]

theorem differsAt_withType (h : s.Indexed) (hmore : s.Accepts l more)
    (hnew : s.typeWithLabel? l = none) :
    s.DiffersAt ((s.withLabel l).2.withType (s.withLabel l).1 more.superType
        (more.valueType <|> s.inherited more)) s.nextId
      (.type l more.superType (more.valueType <|> s.inherited more)) := by
  have hmet := alike_withLabel h l
  have hget : (s.withLabel l).2.typesByLabel.get? (s.withLabel l).1 = none :=
    (h.typesIndexed.typeWithLabel?_eq l).symm.trans hnew
  have hsuper : ∀ upper ∈ more.superType, ∃ label value,
      (s.withLabel l).2.IsType upper label value := by
    intro upper hupper
    obtain ⟨label, htype⟩ := (hmore.superType upper hupper).isType
    exact ⟨label, _, htype⟩
  refine ⟨(Grows.addType (idOf?_withLabel s l) hget hsuper).indexed hmet.right, fun a => ?_,
    fun owner => (hmet.attributes owner).symm, hmet.playings.symm⟩
  rw [(adds_withType _ _ _ _).described?, ← hmet.described? a, describe,
    LabelTable.label?_eq_some_iff.2 (idOf?_withLabel s l)]
  rfl

theorem differsAt_withTypeInfo (h : s.Indexed) (hid : s.typeWithLabel? l = some id)
    (hmore : (s.typeInfo id).Admits more) :
    s.DiffersAt ((s.withLabel l).2.withTypeInfo id more.superType more.valueType) id
      (.type l ((s.typeInfo id).join more).superType ((s.typeInfo id).join more).valueType) := by
  have hmet := alike_withLabel h l
  have hget : (s.withLabel l).2.typesByLabel.get? (s.withLabel l).1 = some id :=
    (h.typesIndexed.typeWithLabel?_eq l).symm.trans hid
  obtain ⟨known, houtline⟩ := h.typesIndexed.index.1 hget
  obtain ⟨knownValue, hconcept⟩ := outline?_eq_type_iff.1 houtline
  have hupper := hmore.superType_orElse
  simp only [Store.typeInfo, superType?, hconcept] at hupper
  have hgrows : (s.withLabel l).2.Grows
      ((s.withLabel l).2.withTypeInfo id more.superType more.valueType) :=
    .extendType (idOf?_withLabel s l) hget hmore.superType (agree_iff.1 hmore.valueType)
  refine ⟨hgrows.indexed hmet.right, fun a => ?_, fun owner => ?_, ?_⟩
  · have hconcept' : (s.withLabel l).2.concept? id =
        some (.type (s.withLabel l).1 known knownValue) := hconcept
    rw [described?_withTypeInfo hconcept', ← hmet.described? a, hupper,
      LabelTable.label?_eq_some_iff.2 (idOf?_withLabel s l)]
    simp only [TypeInfo.join, Store.typeInfo, superType?, valueType?, hconcept]
  · rw [attributes_withTypeInfo]
    exact (hmet.attributes owner).symm
  · rw [playings_withTypeInfo, hmet.playings]

/-- An accepted call succeeds, and what it has changed is the type with the label. -/
theorem exists_run_defineType (h : s.Reachable) (hmore : s.Accepts l more) :
    ∃ t, (defineType l more.superType more.valueType).run.run s = (.ok (s.numberFor l), t) ∧
      s.DiffersAt t (s.numberFor l)
        (.type l (s.told l more).superType (s.told l more).valueType) := by
  have hrun := run_defineType hmore.superType l more.valueType
  have hget : (s.withLabel l).2.typesByLabel.get? (s.withLabel l).1 = s.typeWithLabel? l :=
    (h.typesIndexed.typeWithLabel?_eq l).symm
  rw [hget] at hrun
  rw [numberFor, told]
  cases hid : s.typeWithLabel? l with
  | some id =>
    have hadmits := hmore.known id hid
    have hextend := run_extendType l id more.superType more.valueType (s.withLabel l).2
    rw [if_neg (fun hne => hne.2 (hadmits.superType hne.1)),
      if_neg (fun hne => hne.2.2 (agree_iff.1 hadmits.valueType hne.1 hne.2.1))] at hextend
    rw [hid] at hrun
    dsimp only at hrun
    rw [run_bind_of_ok hextend] at hrun
    exact ⟨_, hrun, differsAt_withTypeInfo h.indexed hid hadmits⟩
  | none =>
    rw [hid] at hrun
    exact ⟨_, hrun, differsAt_withType h.indexed hmore hid⟩

/-- Only accepted calls succeed. -/
theorem defineType_cases (more : TypeInfo) (h : s.Reachable)
    (hrun : (defineType l more.superType more.valueType).run.run s = (.ok id, t)) :
    s.Accepts l more ∧ id = s.numberFor l ∧
      s.DiffersAt t id (.type l (s.told l more).superType (s.told l more).valueType) := by
  have hmore := accepts_of_run more h hrun
  obtain ⟨t', hrun', ht'⟩ := exists_run_defineType h hmore
  cases hrun.symm.trans hrun'
  exact ⟨hmore, rfl, ht'⟩

/-- The type that is defined, or has been, has what is said of it. -/
theorem facts_of_defineType (h : s.Reachable) {superType : Option ConceptId}
    {valueType : Option ValueType}
    (hrun : (defineType l superType valueType).run.run s = (.ok id, t)) :
    t.label? id = some l ∧ (∀ upper ∈ superType, t.superType? id = some upper) ∧
      ∀ v ∈ valueType, t.valueType? id = some v := by
  obtain ⟨hmore, -, ht⟩ := defineType_cases ⟨superType, valueType⟩ h hrun
  have hlabel : t.label? id = some l := by
    rw [← ht.indexed.consistent.typeWithLabel]
    exact ht.typeWithLabel?_self
  have hknows : (t.typeInfo id).Knows ⟨superType, valueType⟩ := by
    rw [ht.typeInfo_self]
    exact hmore.knows
  exact ⟨hlabel, hknows.superType, hknows.valueType⟩

end Store

end GraphQuery
