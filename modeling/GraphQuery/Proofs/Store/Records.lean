import GraphQuery.Proofs.Store.Edges

/-!
# Concepts and their indexes

A store never changes what it says of a concept, but for a datatype that it did not have. Each
concept that it gets is entered into the indexes at once: a type under its label, an instance under
its type, an attribute under its type and value. So in a reachable store the indexes say what the
concepts say.
-/

namespace GraphQuery

/-- A concept without its datatype, which is all of it that can change. -/
def Concept.outline : Concept → Concept
  | .type label superType _ => .type label superType none
  | .member t value => .member t value

namespace Store

variable {s t : Store} {id : ConceptId}

def outline? (s : Store) (id : ConceptId) : Option Concept := (s.concept? id).map Concept.outline

theorem outline?_eq_type_iff {label : LabelId} {superType : Option ConceptId} :
    s.outline? id = some (.type label superType none) ↔
      ∃ valueType, s.concept? id = some (.type label superType valueType) := by
  rw [outline?, Option.map_eq_some_iff]
  constructor
  · rintro ⟨c, hc, houtline⟩
    cases c with
    | type l u v =>
      cases houtline
      exact ⟨v, hc⟩
    | member => cases houtline
  · rintro ⟨v, hc⟩
    exact ⟨_, hc, rfl⟩

theorem outline?_eq_member_iff {type : ConceptId} {value : Option Value} :
    s.outline? id = some (.member type value) ↔ s.concept? id = some (.member type value) := by
  rw [outline?, Option.map_eq_some_iff]
  constructor
  · rintro ⟨c, hc, houtline⟩
    cases c with
    | type => cases houtline
    | member t v =>
      cases houtline
      exact hc
  · intro hc
    exact ⟨_, hc, rfl⟩

theorem lt_size_of_outline? {c : Concept} (h : s.outline? id = some c) : id.number < s.size := by
  obtain ⟨_, hconcept, -⟩ := Option.map_eq_some_iff.1 h
  exact (Array.getElem?_eq_some_iff.1 hconcept).1

theorem outline?_nextId : s.outline? s.nextId = none := by
  simp [outline?, concept?, nextId, size]

theorem concept?_nextId : s.concept? s.nextId = none :=
  Option.map_eq_none_iff.1 outline?_nextId

theorem ne_nextId {c : Concept} (h : s.outline? id = some c) : id ≠ s.nextId := by
  rintro rfl
  rw [outline?_nextId] at h
  cases h

theorem concept?_push (c : Concept) (h : t.concepts = s.concepts.push c) (id : ConceptId) :
    t.concept? id = if id = s.nextId then some c else s.concept? id := by
  simp only [concept?, h, Array.getElem?_push, nextId, size]
  obtain ⟨n⟩ := id
  by_cases hn : n = s.concepts.size
  · simp [hn]
  · simp [hn]

theorem concept?_withTypeInfo {type : ConceptId} {label : LabelId} {known : Option ConceptId}
    {valueType : Option ValueType} (h : s.concept? type = some (.type label known valueType))
    (superType : Option ConceptId) (more : Option ValueType) (id : ConceptId) :
    (s.withTypeInfo type superType more).concept? id =
      if id = type then some (.type label (known <|> superType) (valueType <|> more))
      else s.concept? id := by
  obtain ⟨hlt, -⟩ := Array.getElem?_eq_some_iff.1 h
  obtain ⟨n⟩ := id
  obtain ⟨k⟩ := type
  simp only [withTypeInfo, h]
  simp only [concept?, Array.getElem?_setIfInBounds, ConceptId.mk.injEq]
  by_cases hn : n = k
  · simp_all
  · simp [hn, Ne.symm hn]

theorem outline?_push (c : Concept) (h : t.concepts = s.concepts.push c) (id : ConceptId) :
    t.outline? id = if id = s.nextId then some c.outline else s.outline? id := by
  rw [outline?, concept?_push c h]
  split <;> rfl

theorem outline?_withType (label : LabelId) (superType : Option ConceptId)
    (valueType : Option ValueType) (id : ConceptId) :
    (s.withType label superType valueType).outline? id =
      if id = s.nextId then some (.type label superType none) else s.outline? id :=
  outline?_push (.type label superType valueType) rfl id

theorem outline?_withMember (type : ConceptId) (value : Option Value) (id : ConceptId) :
    (s.withMember type value).outline? id =
      if id = s.nextId then some (.member type value) else s.outline? id :=
  outline?_push (.member type value) rfl id

/-- Saying more of a type that contradicts nothing only changes its datatype. -/
theorem outline?_withTypeInfo {superType : Option ConceptId} {valueType : Option ValueType}
    {type : ConceptId} (h : superType.isSome → s.superType? type = superType) (id : ConceptId) :
    (s.withTypeInfo type superType valueType).outline? id = s.outline? id := by
  rw [withTypeInfo]
  split
  case h_1 label known value hconcept =>
    have hknown : (known <|> superType) = known := by
      cases superType with
      | none => cases known <;> rfl
      | some upper =>
        have hupper : s.superType? type = some upper := h rfl
        rw [superType?, hconcept] at hupper
        rw [show known = some upper from hupper]
        rfl
    rw [hknown]
    simp only [outline?, concept?, Array.getElem?_setIfInBounds]
    split
    case isTrue hid =>
      have hconcept : s.concepts[id.number]? = some (.type label known value) := hid ▸ hconcept
      rw [hconcept, if_pos (hid ▸ (Array.getElem?_eq_some_iff.1 hconcept).1)]
      rfl
    case isFalse => rfl
  case h_2 => rfl

theorem labels_withTypeInfo (s : Store) (type : ConceptId) (superType : Option ConceptId)
    (valueType : Option ValueType) : (s.withTypeInfo type superType valueType).labels = s.labels := by
  rw [withTypeInfo]
  split <;> rfl

/-- The concepts and their indexes are the same but for datatypes, and no label is lost. -/
structure SameRecords (s t : Store) : Prop where
  labels : s.labels.Within t.labels
  outline? : ∀ id, t.outline? id = s.outline? id
  typesByLabel : t.typesByLabel = s.typesByLabel
  membersByType : t.membersByType = s.membersByType
  attributesByValue : t.attributesByValue = s.attributesByValue

/-- A step adds no concept, or a type, or an instance, which may be an attribute. -/
theorem Grows.records (h : s.Grows t) :
    s.SameRecords t ∨
      (∃ label superType valueType, (∃ l, s.labels.idOf? l = some label) ∧
        s.typesByLabel.get? label = none ∧
        (∀ upper ∈ superType, ∃ upperLabel upperValue, s.IsType upper upperLabel upperValue) ∧
        t = s.withType label superType valueType) ∨
      (∃ type, (∃ label valueType, s.IsType type label valueType) ∧ t = s.withMember type none) ∨
      (∃ type value, (∃ label valueType, s.IsType type label valueType) ∧
        s.attributesByValue.lookup (type, value) = none ∧ t = s.withAttribute type value) := by
  cases h with
  | meetLabel l => exact .inl ⟨s.labels.within_intern l, fun _ => rfl, rfl, rfl, rfl⟩
  | addType hlabel hnew hsuper => exact .inr (.inl ⟨_, _, _, ⟨_, hlabel⟩, hnew, hsuper, rfl⟩)
  | extendType _ _ hsuper =>
    have hlabels := labels_withTypeInfo s
    refine .inl ⟨hlabels .. ▸ .refl _, outline?_withTypeInfo hsuper, ?_, ?_, ?_⟩ <;>
      (rw [withTypeInfo]; split <;> rfl)
  | addMember htype => exact .inr (.inr (.inl ⟨_, ⟨_, _, htype⟩, rfl⟩))
  | addAttribute htype _ hnew => exact .inr (.inr (.inr ⟨_, _, ⟨_, _, htype⟩, hnew, rfl⟩))
  | addHas => exact .inl ⟨.refl _, fun _ => rfl, rfl, rfl, rfl⟩
  | addRoleEdge => exact .inl ⟨.refl _, fun _ => rfl, rfl, rfl, rfl⟩

/-- What a concept is, datatypes apart, it stays. -/
theorem Grows.outline?_eq (h : s.Grows t) {c : Concept} (hc : s.outline? id = some c) :
    t.outline? id = some c := by
  have hid : id ≠ s.nextId := ne_nextId hc
  obtain hsame | ⟨_, _, _, -, -, -, rfl⟩ | ⟨_, -, rfl⟩ | ⟨_, _, -, -, rfl⟩ := h.records
  · rw [hsame.outline?, hc]
  all_goals rw [outline?_push _ rfl, if_neg hid, hc]

/-- The index of types by their labels, which the table knows, and the order of types. -/
structure TypesIndexed (s : Store) : Prop where
  known : ∀ {id label superType}, s.outline? id = some (.type label superType none) →
    ∃ l, s.labels.idOf? l = some label
  index : ∀ {id label}, s.typesByLabel.get? label = some id ↔
    ∃ superType, s.outline? id = some (.type label superType none)
  /-- A type is younger than its supertype. -/
  superType : ∀ {id label upper}, s.outline? id = some (.type label (some upper) none) →
    upper.number < id.number ∧
      ∃ upperLabel next, s.outline? upper = some (.type upperLabel next none)

theorem TypesIndexed.of_sameRecords (hs : s.TypesIndexed) (h : s.SameRecords t) :
    t.TypesIndexed := by
  refine ⟨fun hid => ?_, ?_, ?_⟩
  · obtain ⟨l, hl⟩ := hs.known (h.outline? _ ▸ hid)
    rw [← LabelTable.label?_eq_some_iff] at hl
    exact ⟨l, LabelTable.label?_eq_some_iff.1 (h.labels _ _ hl)⟩
  · simp only [h.outline?, h.typesByLabel]
    exact hs.index
  · simp only [h.outline?]
    exact hs.superType

/-- An instance changes nothing for types. -/
theorem TypesIndexed.of_push_member (hs : s.TypesIndexed) {type : ConceptId} {value : Option Value}
    (hconcepts : t.concepts = s.concepts.push (.member type value)) (hlabels : t.labels = s.labels)
    (hindex : t.typesByLabel = s.typesByLabel) : t.TypesIndexed := by
  have htype : ∀ id label superType, t.outline? id = some (.type label superType none) ↔
      s.outline? id = some (.type label superType none) := by
    intro id label superType
    rw [outline?_push _ hconcepts]
    split
    case isTrue h => simp [h, outline?_nextId, Concept.outline]
    case isFalse => rfl
  refine ⟨?_, ?_, ?_⟩
  · simp only [htype, hlabels]
    exact hs.known
  · simp only [htype, hindex]
    exact hs.index
  · simp only [htype]
    exact hs.superType

theorem TypesIndexed.withType (hs : s.TypesIndexed) {label : LabelId}
    {superType : Option ConceptId} (valueType : Option ValueType)
    (hknown : ∃ l, s.labels.idOf? l = some label) (hnew : s.typesByLabel.get? label = none)
    (hsuper : ∀ upper ∈ superType, ∃ upperLabel upperValue, s.IsType upper upperLabel upperValue) :
    (s.withType label superType valueType).TypesIndexed := by
  refine ⟨fun {id k u} hid => ?_, fun {id k} => ?_, fun {id k upper} hid => ?_⟩
  · rw [outline?_withType] at hid
    split at hid
    case isTrue =>
      cases hid
      exact hknown
    case isFalse => exact hs.known hid
  · have hget : (s.withType label superType valueType).typesByLabel.get? k =
        if label = k then some s.nextId else s.typesByLabel.get? k := SortedMap.get?_insert ..
    rw [hget]
    simp only [outline?_withType]
    by_cases hk : label = k
    · subst hk
      have hother : ¬∃ u, s.outline? id = some (.type label u none) := by
        rw [← hs.index, hnew]
        simp
      by_cases hid : id = s.nextId
      · simp [hid]
      · simpa [hid, Ne.symm hid] using hother
    · rw [if_neg hk, hs.index]
      by_cases hid : id = s.nextId
      · simp [hid, hk, outline?_nextId]
      · simp [hid]
  · have hupper : upper.number < id.number ∧
        ∃ upperLabel next, s.outline? upper = some (.type upperLabel next none) := by
      rw [outline?_withType] at hid
      split at hid
      case isTrue h =>
        cases hid
        obtain ⟨upperLabel, upperValue, next, htype⟩ := hsuper upper rfl
        have hupper : s.outline? upper = some (.type upperLabel next none) :=
          outline?_eq_type_iff.2 ⟨_, htype⟩
        exact ⟨h ▸ lt_size_of_outline? hupper, _, _, hupper⟩
      case isFalse => exact hs.superType hid
    obtain ⟨hlt, upperLabel, next, hupper⟩ := hupper
    refine ⟨hlt, upperLabel, next, ?_⟩
    rw [outline?_withType, if_neg (ne_nextId hupper), hupper]

theorem Grows.typesIndexed (h : s.Grows t) (hs : s.TypesIndexed) : t.TypesIndexed := by
  obtain hsame | ⟨_, _, _, hknown, hnew, hsuper, rfl⟩ | ⟨_, -, rfl⟩ | ⟨_, _, -, -, rfl⟩ := h.records
  · exact hs.of_sameRecords hsame
  · exact hs.withType _ hknown hnew hsuper
  · exact hs.of_push_member rfl rfl rfl
  · exact hs.of_push_member rfl rfl rfl

/-- The type with a label is the one under the number that the label has once it is met. -/
theorem TypesIndexed.typeWithLabel?_eq (hs : s.TypesIndexed) (l : Label) :
    s.typeWithLabel? l = s.typesByLabel.get? (s.withLabel l).1 := by
  have hmet := idOf?_withLabel s l
  cases hknown : s.labels.idOf? l with
  | some label =>
    have hlabel : (s.withLabel l).1 = label := by
      rw [← LabelTable.label?_eq_some_iff] at hknown
      have hsame := s.labels.within_intern l _ _ hknown
      exact Option.some.inj (hmet.symm.trans (LabelTable.label?_eq_some_iff.1 hsame))
    simp [typeWithLabel?, hknown, hlabel]
  | none =>
    have hnew : s.typesByLabel.get? (s.withLabel l).1 = none := by
      by_contra hfound
      obtain ⟨id, hid⟩ := Option.ne_none_iff_exists'.1 hfound
      obtain ⟨superType, houtline⟩ := hs.index.1 hid
      obtain ⟨m, hm⟩ := hs.known houtline
      -- The number has one label, so the table knows `l` already.
      rw [← LabelTable.label?_eq_some_iff] at hm hmet
      have hsame := s.labels.within_intern l _ _ hm
      cases Option.some.inj (hsame.symm.trans hmet)
      rw [LabelTable.label?_eq_some_iff, hknown] at hm
      cases hm
    simp [typeWithLabel?, hknown, hnew]

/-- The index of instances by their types. -/
structure MembersIndexed (s : Store) : Prop where
  type : ∀ {id type value}, s.outline? id = some (.member type value) →
    ∃ label superType, s.outline? type = some (.type label superType none)
  index : ∀ {id type}, id ∈ s.members type ↔ ∃ value, s.outline? id = some (.member type value)

theorem members_withMember (s : Store) (type : ConceptId) (value : Option Value) (a : ConceptId) :
    (s.withMember type value).members a =
      if type = a then (s.members type).insert s.nextId else s.members a := by
  simp only [members, withMember, SortedMap.get?_update]
  split <;> rfl

theorem MembersIndexed.of_sameRecords (hs : s.MembersIndexed) (h : s.SameRecords t) :
    t.MembersIndexed := by
  refine ⟨?_, ?_⟩
  · simp only [h.outline?]
    exact hs.type
  · simp only [h.outline?, members, h.membersByType]
    exact hs.index

/-- A type changes nothing for instances. -/
theorem MembersIndexed.withType (hs : s.MembersIndexed) (label : LabelId)
    (superType : Option ConceptId) (valueType : Option ValueType) :
    (s.withType label superType valueType).MembersIndexed := by
  have hmember : ∀ id type value,
      (s.withType label superType valueType).outline? id = some (.member type value) ↔
        s.outline? id = some (.member type value) := by
    intro id type value
    rw [outline?_withType]
    split
    case isTrue h => simp [h, outline?_nextId]
    case isFalse => rfl
  refine ⟨?_, ?_⟩
  · intro id type value hid
    obtain ⟨typeLabel, upper, htype⟩ := hs.type ((hmember id type value).1 hid)
    exact ⟨typeLabel, upper, by rw [outline?_withType, if_neg (ne_nextId htype), htype]⟩
  · simp only [hmember]
    exact hs.index

theorem MembersIndexed.withMember (hs : s.MembersIndexed) {type : ConceptId}
    (value : Option Value) (htype : ∃ label valueType, s.IsType type label valueType) :
    (s.withMember type value).MembersIndexed := by
  refine ⟨fun {id u v} hid => ?_, fun {id u} => ?_⟩
  · have htype : ∃ label superType, s.outline? u = some (.type label superType none) := by
      rw [outline?_withMember] at hid
      split at hid
      case isTrue =>
        cases hid
        obtain ⟨label, valueType, superType, htype⟩ := htype
        exact ⟨label, superType, outline?_eq_type_iff.2 ⟨_, htype⟩⟩
      case isFalse => exact hs.type hid
    obtain ⟨label, superType, htype⟩ := htype
    exact ⟨label, superType, by rw [outline?_withMember, if_neg (ne_nextId htype), htype]⟩
  · rw [members_withMember]
    simp only [outline?_withMember]
    by_cases hid : id = s.nextId
    · have hnot : s.nextId ∉ s.members u := by
        rw [hs.index, outline?_nextId]
        simp
      by_cases hu : type = u
      · simp [hid, hu]
      · simp [hid, hu, hnot]
    · by_cases hu : type = u
      · simp [hid, hu, SortedSet.mem_insert, hs.index]
      · simp [hid, hu, hs.index]

theorem Grows.membersIndexed (h : s.Grows t) (hs : s.MembersIndexed) : t.MembersIndexed := by
  obtain hsame | ⟨_, _, _, -, -, -, rfl⟩ | ⟨_, htype, rfl⟩ | ⟨_, value, htype, -, rfl⟩ := h.records
  · exact hs.of_sameRecords hsame
  · exact hs.withType _ _ _
  · exact hs.withMember none htype
  · have hmember := hs.withMember (some value) htype
    exact ⟨hmember.type, hmember.index⟩

/-- The index of attributes by their types and values, of which each pair has one attribute. -/
structure AttributesIndexed (s : Store) : Prop where
  index : ∀ {id type value}, s.attributesByValue.lookup (type, value) = some id ↔
    s.outline? id = some (.member type (some value))

/-- A concept that is no attribute changes nothing for attributes. -/
theorem AttributesIndexed.of_push (hs : s.AttributesIndexed) (c : Concept)
    (hconcepts : t.concepts = s.concepts.push c)
    (hc : ∀ type value, c.outline ≠ .member type (some value))
    (hindex : t.attributesByValue = s.attributesByValue) : t.AttributesIndexed := by
  refine ⟨fun {id type value} => ?_⟩
  rw [outline?_push _ hconcepts, hindex, hs.index]
  split
  case isTrue h => simp [h, outline?_nextId, hc]
  case isFalse => rfl

theorem AttributesIndexed.withAttribute (hs : s.AttributesIndexed) {type : ConceptId}
    {value : Value} (hnew : s.attributesByValue.lookup (type, value) = none) :
    (s.withAttribute type value).AttributesIndexed := by
  refine ⟨fun {id u v} => ?_⟩
  have houtline : (s.withAttribute type value).outline? id =
      if id = s.nextId then some (.member type (some value)) else s.outline? id :=
    outline?_withMember type (some value) id
  have hlookup : (s.withAttribute type value).attributesByValue.lookup (u, v) =
      if (u, v) = (type, value) then some s.nextId else s.attributesByValue.lookup (u, v) := by
    rw [Store.withAttribute, List.lookup_cons]
    by_cases h : (u, v) = (type, value)
    · simp [h]
    · have hne : ((u, v) == (type, value)) = false := beq_eq_false_iff_ne.2 h
      simp [h, hne]
  rw [houtline, hlookup]
  by_cases hkey : (u, v) = (type, value)
  · cases hkey
    have hother : s.outline? id ≠ some (.member type (some value)) := by
      rw [Ne, ← hs.index, hnew]
      simp
    by_cases hid : id = s.nextId
    · simp [hid]
    · simp [hid, Ne.symm hid, hother]
  · rw [if_neg hkey, hs.index]
    by_cases hid : id = s.nextId
    · have hother : ¬(type = u ∧ value = v) := by
        rintro ⟨rfl, rfl⟩
        exact hkey rfl
      simp [hid, outline?_nextId, hother]
    · simp [hid]

theorem Grows.attributesIndexed (h : s.Grows t) (hs : s.AttributesIndexed) :
    t.AttributesIndexed := by
  obtain hsame | ⟨label, superType, valueType, -, -, -, rfl⟩ | ⟨type, -, rfl⟩ |
    ⟨type, value, -, hnew, rfl⟩ := h.records
  · refine ⟨?_⟩
    simp only [hsame.outline?, hsame.attributesByValue]
    exact hs.index
  · exact hs.of_push (.type label superType valueType) rfl (by simp [Concept.outline]) rfl
  · exact hs.of_push (.member type none) rfl (by simp [Concept.outline]) rfl
  · exact hs.withAttribute hnew

theorem outline?_empty (id : ConceptId) : empty.outline? id = none := rfl

theorem Reachable.typesIndexed (h : s.Reachable) : s.TypesIndexed := by
  refine h.induction ⟨?_, ?_, ?_⟩ fun _ _ hgrows hs => hgrows.typesIndexed hs
  · simp [outline?_empty]
  · simp [outline?_empty, show empty.typesByLabel = .empty from rfl]
  · simp [outline?_empty]

theorem Reachable.membersIndexed (h : s.Reachable) : s.MembersIndexed := by
  refine h.induction ⟨?_, ?_⟩ fun _ _ hgrows hs => hgrows.membersIndexed hs
  · simp [outline?_empty]
  · simp [outline?_empty, members, show empty.membersByType = .empty from rfl]

theorem Reachable.attributesIndexed (h : s.Reachable) : s.AttributesIndexed := by
  refine h.induction ⟨?_⟩ fun _ _ hgrows hs => hgrows.attributesIndexed hs
  simp [outline?_empty, show empty.attributesByValue = [] from rfl]

end Store

end GraphQuery
