import GraphQuery.Proofs.Store.Consistency

/-!
# What can be read of a store

All that a store answers follows from what its concepts are, which attributes they own and which
roles they play, labels being given themselves and not by their numbers. Stores that agree in this
look the same (`Alike.looksLike`), and still do so when each of them has taken the same step.
-/

namespace GraphQuery

/-- What can be read of a concept. -/
inductive Description where
  | type (label : Option Label) (superType : Option ConceptId) (valueType : Option ValueType)
  | member (type : ConceptId) (value : Option Value)

namespace Description

def label? : Description → Option Label
  | .type label _ _ => label
  | .member .. => none

def superType? : Description → Option ConceptId
  | .type _ superType _ => superType
  | .member .. => none

def valueType? : Description → Option ValueType
  | .type _ _ valueType => valueType
  | .member .. => none

def type? : Description → Option ConceptId
  | .type .. => none
  | .member a _ => some a

def value? : Description → Option Value
  | .type .. => none
  | .member _ value => value

end Description

namespace Store

variable {s t u : Store} {id : ConceptId}

def describe (s : Store) : Concept → Description
  | .type label superType valueType => .type (s.labels.label? label) superType valueType
  | .member type value => .member type value

def described? (s : Store) (id : ConceptId) : Option Description := (s.concept? id).map s.describe

theorem isSome_described? : (s.described? id).isSome = true ↔ id.number < s.size := by
  simp [described?, concept?, size]

theorem label?_eq_bind (s : Store) (id : ConceptId) :
    s.label? id = (s.described? id).bind Description.label? := by
  rw [label?, described?]
  rcases s.concept? id with _ | (_ | _) <;> rfl

theorem superType?_eq_bind (s : Store) (id : ConceptId) :
    s.superType? id = (s.described? id).bind Description.superType? := by
  rw [superType?, described?]
  rcases s.concept? id with _ | (_ | _) <;> rfl

theorem valueType?_eq_bind (s : Store) (id : ConceptId) :
    s.valueType? id = (s.described? id).bind Description.valueType? := by
  rw [valueType?, described?]
  rcases s.concept? id with _ | (_ | _) <;> rfl

theorem type?_eq_bind (s : Store) (id : ConceptId) :
    s.type? id = (s.described? id).bind Description.type? := by
  rw [type?, described?]
  rcases s.concept? id with _ | (_ | _) <;> rfl

theorem value?_eq_bind (s : Store) (id : ConceptId) :
    s.value? id = (s.described? id).bind Description.value? := by
  rw [value?, described?]
  rcases s.concept? id with _ | (_ | _) <;> rfl

/-- Stores in line with their indexes that say the same of their concepts. -/
structure Alike (s t : Store) : Prop where
  left : s.Indexed
  right : t.Indexed
  described? : ∀ id, s.described? id = t.described? id
  attributes : ∀ owner, s.attributes owner = t.attributes owner
  playings : s.playings = t.playings

theorem Alike.refl (h : s.Indexed) : s.Alike s := ⟨h, h, fun _ => rfl, fun _ => rfl, rfl⟩

theorem Alike.symm (h : s.Alike t) : t.Alike s :=
  ⟨h.right, h.left, fun id => (h.described? id).symm, fun owner => (h.attributes owner).symm,
    h.playings.symm⟩

theorem Alike.trans (h : s.Alike t) (k : t.Alike u) : s.Alike u :=
  ⟨h.left, k.right, fun id => (h.described? id).trans (k.described? id),
    fun owner => (h.attributes owner).trans (k.attributes owner), h.playings.trans k.playings⟩

/-- Whatever is read of two stores, the answers are the same. -/
structure LooksLike (s t : Store) : Prop where
  size : s.size = t.size
  typeWithLabel? : ∀ l, s.typeWithLabel? l = t.typeWithLabel? l
  contains : ∀ id, ((Store.contains id).run.run s).1 = ((Store.contains id).run.run t).1
  label? : ∀ id, s.label? id = t.label? id
  superType? : ∀ id, s.superType? id = t.superType? id
  valueType? : ∀ id, s.valueType? id = t.valueType? id
  type? : ∀ id, s.type? id = t.type? id
  value? : ∀ id, s.value? id = t.value? id
  members : ∀ type, s.members type = t.members type
  attributes : ∀ owner, s.attributes owner = t.attributes owner
  owners : ∀ owned, s.owners owned = t.owners owned
  players : ∀ relation, s.players relation = t.players relation
  relations : ∀ player, s.relations player = t.relations player

/-- Whether a concept is there decides how a call that asks for it ends. -/
theorem run_contains (s : Store) (id : ConceptId) : (contains id).run.run s =
    (if id.number < ConceptId.limit then .ok (s.described? id).isSome
      else .error (.outOfRange id), s) := by
  have hsome : (s.described? id).isSome = (s.concept? id).isSome := by simp [Store.described?]
  rw [hsome, contains, checkRange]
  split <;> rfl

namespace Alike

/-- Alike stores have the same instances; their types may differ in the numbers of labels. -/
theorem concept?_cases (h : s.Alike t) (id : ConceptId) :
    (s.concept? id = none ∧ t.concept? id = none) ∨
      (∃ label label' superType valueType, s.concept? id = some (.type label superType valueType) ∧
        t.concept? id = some (.type label' superType valueType) ∧
        s.labels.label? label = t.labels.label? label') ∨
      ∃ type value, s.concept? id = some (.member type value) ∧
        t.concept? id = some (.member type value) := by
  have hdescribed := h.described? id
  rw [Store.described?, Store.described?] at hdescribed
  cases hs : s.concept? id with
  | none =>
    cases ht : t.concept? id with
    | none => simp
    | some d => simp [hs, ht] at hdescribed
  | some c =>
    cases ht : t.concept? id with
    | none => simp [hs, ht] at hdescribed
    | some d => cases c <;> cases d <;> simp_all [describe]

theorem nextId (h : s.Alike t) : s.nextId = t.nextId := by
  have hsize : s.size = t.size := by
    refine eq_of_forall_lt_iff fun n => ?_
    have hs : (s.described? ⟨n⟩).isSome = true ↔ n < s.size := isSome_described?
    rw [← hs, h.described? ⟨n⟩, isSome_described?]
  rw [Store.nextId, Store.nextId, hsize]

theorem label? (h : s.Alike t) (id : ConceptId) : s.label? id = t.label? id := by
  rw [label?_eq_bind, label?_eq_bind, h.described?]

theorem superType? (h : s.Alike t) (id : ConceptId) : s.superType? id = t.superType? id := by
  rw [superType?_eq_bind, superType?_eq_bind, h.described?]

theorem valueType? (h : s.Alike t) (id : ConceptId) : s.valueType? id = t.valueType? id := by
  rw [valueType?_eq_bind, valueType?_eq_bind, h.described?]

theorem type? (h : s.Alike t) (id : ConceptId) : s.type? id = t.type? id := by
  rw [type?_eq_bind, type?_eq_bind, h.described?]

theorem value? (h : s.Alike t) (id : ConceptId) : s.value? id = t.value? id := by
  rw [value?_eq_bind, value?_eq_bind, h.described?]

theorem typeWithLabel? (h : s.Alike t) (l : Label) : s.typeWithLabel? l = t.typeWithLabel? l := by
  ext id
  rw [h.left.consistent.typeWithLabel, h.right.consistent.typeWithLabel, h.label?]

/-- Labels, not their numbers, tell which type is which. -/
theorem get?_typesByLabel (h : s.Alike t) {l : Label} {label label' : LabelId}
    (hs : s.labels.idOf? l = some label) (ht : t.labels.idOf? l = some label') :
    s.typesByLabel.get? label = t.typesByLabel.get? label' := by
  simpa [Store.typeWithLabel?, hs, ht] using h.typeWithLabel? l

theorem lookup_attributesByValue (h : s.Alike t) (type : ConceptId) (value : Value) :
    s.attributesByValue.lookup (type, value) = t.attributesByValue.lookup (type, value) := by
  ext id
  rw [h.left.consistent.attributesByValue, h.right.consistent.attributesByValue, h.type?, h.value?]

theorem looksLike (h : s.Alike t) : s.LooksLike t where
  size := congrArg ConceptId.number h.nextId
  typeWithLabel? := h.typeWithLabel?
  contains id := by rw [run_contains, run_contains, h.described?]
  label? := h.label?
  superType? := h.superType?
  valueType? := h.valueType?
  type? := h.type?
  value? := h.value?
  members type := by
    apply SortedSet.ext
    intro id
    rw [h.left.consistent.members, h.right.consistent.members, h.type?]
  attributes := h.attributes
  owners owned := by
    apply SortedSet.ext
    intro owner
    rw [← h.left.consistent.ownership, ← h.right.consistent.ownership, h.attributes]
  players relation := by
    rw [h.left.consistent.players_eq, h.right.consistent.players_eq, h.playings]
  relations player := by
    have hmem (u : Store) (hu : u.Indexed) (relation : ConceptId) :
        relation ∈ u.relations player ↔
          ∃ playing ∈ u.playings, playing.relation = relation ∧ playing.player = player := by
      simp [hu.consistent.relations, Store.playings]
    apply SortedSet.ext
    intro relation
    rw [hmem s h.left, hmem t h.right, h.playings]

end Alike

/-- The store has one more concept, with the label table and the edges that it had. -/
structure Adds (s t : Store) (c : Concept) : Prop where
  labels : t.labels = s.labels
  concepts : t.concepts = s.concepts.push c
  attributesByOwner : t.attributesByOwner = s.attributesByOwner
  roleEdges : t.roleEdges = s.roleEdges

theorem adds_withType (s : Store) (label : LabelId) (superType : Option ConceptId)
    (valueType : Option ValueType) :
    s.Adds (s.withType label superType valueType) (.type label superType valueType) :=
  ⟨rfl, rfl, rfl, rfl⟩

theorem adds_withMember (s : Store) (type : ConceptId) (value : Option Value) :
    s.Adds (s.withMember type value) (.member type value) :=
  ⟨rfl, rfl, rfl, rfl⟩

theorem adds_withAttribute (s : Store) (type : ConceptId) (value : Value) :
    s.Adds (s.withAttribute type value) (.member type (some value)) :=
  ⟨rfl, rfl, rfl, rfl⟩

theorem Adds.described? {c : Concept} (h : s.Adds t c) (id : ConceptId) :
    t.described? id = if id = s.nextId then some (s.describe c) else s.described? id := by
  have hdescribe : t.describe = s.describe := by
    funext c
    cases c <;> simp [describe, h.labels]
  rw [Store.described?, concept?_push c h.concepts, hdescribe]
  split <;> rfl

theorem attributes_withTypeInfo (s : Store) (type : ConceptId) (superType : Option ConceptId)
    (valueType : Option ValueType) (owner : ConceptId) :
    (s.withTypeInfo type superType valueType).attributes owner = s.attributes owner := by
  rw [withTypeInfo]
  split <;> rfl

theorem described?_withTypeInfo {type : ConceptId} {label : LabelId} {known : Option ConceptId}
    {knownValue : Option ValueType} (h : s.concept? type = some (.type label known knownValue))
    (superType : Option ConceptId) (valueType : Option ValueType) (id : ConceptId) :
    (s.withTypeInfo type superType valueType).described? id =
      if id = type then
        some (.type (s.labels.label? label) (known <|> superType) (knownValue <|> valueType))
      else s.described? id := by
  have hdescribe : (s.withTypeInfo type superType valueType).describe = s.describe := by
    funext c
    cases c <;> simp [describe, labels_withTypeInfo]
  rw [Store.described?, concept?_withTypeInfo h, hdescribe]
  split <;> rfl

theorem described?_putRoleEdge (s : Store) (edge : RoleEdge) (id : ConceptId) :
    (s.putRoleEdge edge).described? id = s.described? id := by
  rw [putRoleEdge]
  split <;> rfl

theorem attributes_putRoleEdge (s : Store) (edge : RoleEdge) (owner : ConceptId) :
    (s.putRoleEdge edge).attributes owner = s.attributes owner := by
  rw [putRoleEdge]
  split <;> rfl

theorem Indexed.putRoleEdge (h : s.Indexed) {relation player : ConceptId} {role : Option Label}
    {id : Option LabelId} (hrole : Option.Rel (fun id l => s.labels.label? id = some l) id role)
    (hrelation : s.IsMember relation) (hplayer : s.IsMember player) :
    (s.putRoleEdge ⟨relation, id, player⟩).Indexed := by
  rw [Store.putRoleEdge]
  split
  · exact h
  · rename_i hnew
    refine (Grows.addRoleEdge ?_ hrelation hplayer hnew).indexed h
    cases hrole with
    | none => simp
    | some hlabel => simpa using ⟨_, LabelTable.label?_eq_some_iff.1 hlabel⟩

/-- To meet a label makes no difference to what can be read: types and roles keep theirs. -/
theorem alike_withLabel (h : s.Indexed) (l : Label) : s.Alike (s.withLabel l).2 where
  left := h
  right := (Grows.meetLabel l).indexed h
  described? id := by
    rw [Store.described?, Store.described?]
    change _ = (s.concept? id).map _
    cases hconcept : s.concept? id with
    | none => rfl
    | some c =>
      cases c with
      | member => rfl
      | type label superType valueType =>
        obtain ⟨known, hknown⟩ := h.typesIndexed.known (outline?_eq_type_iff.2 ⟨_, hconcept⟩)
        rw [← LabelTable.label?_eq_some_iff] at hknown
        have hlater : (s.withLabel l).2.labels.label? label = some known :=
          s.labels.within_intern l _ _ hknown
        simp [describe, hknown, hlater]
  attributes _ := rfl
  playings := (playings_eq (t := (s.withLabel l).2) h.roleEdgesIndexed
    (s.labels.within_intern l) rfl).symm

namespace Alike

theorem withLabel (h : s.Alike t) (l : Label) : (s.withLabel l).2.Alike (t.withLabel l).2 :=
  (alike_withLabel h.left l).symm.trans (h.trans (alike_withLabel h.right l))

theorem adds {s' t' : Store} {c d : Concept} (h : s.Alike t) (hs : s.Adds s' c) (ht : t.Adds t' d)
    (hsgrows : s.Grows s') (htgrows : t.Grows t') (hcd : s.describe c = t.describe d) :
    s'.Alike t' where
  left := hsgrows.indexed h.left
  right := htgrows.indexed h.right
  described? id := by rw [hs.described?, ht.described?, h.nextId, hcd, h.described?]
  attributes owner := by
    rw [Store.attributes, Store.attributes, hs.attributesByOwner, ht.attributesByOwner]
    exact h.attributes owner
  playings := by
    rw [Store.playings, Store.playings, hs.labels, ht.labels, hs.roleEdges, ht.roleEdges]
    exact h.playings

theorem withTypeInfo (h : s.Alike t) {type : ConceptId} {superType : Option ConceptId}
    {valueType : Option ValueType} (hsgrows : s.Grows (s.withTypeInfo type superType valueType))
    (htgrows : t.Grows (t.withTypeInfo type superType valueType)) :
    (s.withTypeInfo type superType valueType).Alike (t.withTypeInfo type superType valueType) where
  left := hsgrows.indexed h.left
  right := htgrows.indexed h.right
  described? id := by
    rcases h.concept?_cases type with ⟨hs, ht⟩ | ⟨_, _, _, _, hs, ht, hl⟩ | ⟨_, _, hs, ht⟩
    · simp [Store.withTypeInfo, hs, ht, h.described?]
    · rw [described?_withTypeInfo hs, described?_withTypeInfo ht, hl, h.described?]
    · simp [Store.withTypeInfo, hs, ht, h.described?]
  attributes owner := by
    rw [attributes_withTypeInfo, attributes_withTypeInfo, h.attributes]
  playings := by
    have hplayings := h.playings
    simpa [Store.playings, roleEdges_withTypeInfo, labels_withTypeInfo] using hplayings

theorem withHas (h : s.Alike t) {owner owned : ConceptId}
    (hsgrows : s.Grows (s.withHas owner owned)) (htgrows : t.Grows (t.withHas owner owned)) :
    (s.withHas owner owned).Alike (t.withHas owner owned) where
  left := hsgrows.indexed h.left
  right := htgrows.indexed h.right
  described? := h.described?
  attributes a := by rw [attributes_withHas, attributes_withHas, h.attributes, h.attributes]
  playings := h.playings

theorem withRole (h : s.Alike t) (role : Option Label) :
    (s.withRole role).2.Alike (t.withRole role).2 := by
  cases role with
  | none => exact h
  | some l => exact h.withLabel l

theorem putRoleEdge (h : s.Alike t) {relation player : ConceptId} {role : Option Label}
    {id id' : Option LabelId} (hs : Option.Rel (fun id l => s.labels.label? id = some l) id role)
    (ht : Option.Rel (fun id l => t.labels.label? id = some l) id' role)
    (hsends : s.IsMember relation ∧ s.IsMember player)
    (htends : t.IsMember relation ∧ t.IsMember player) :
    (s.putRoleEdge ⟨relation, id, player⟩).Alike (t.putRoleEdge ⟨relation, id', player⟩) where
  left := h.left.putRoleEdge hs hsends.1 hsends.2
  right := h.right.putRoleEdge ht htends.1 htends.2
  described? a := by rw [described?_putRoleEdge, described?_putRoleEdge, h.described?]
  attributes a := by rw [attributes_putRoleEdge, attributes_putRoleEdge, h.attributes]
  playings := by
    rw [playings_putRoleEdge h.left.roleEdgesIndexed hs,
      playings_putRoleEdge h.right.roleEdgesIndexed ht, h.playings]

end Alike

end Store

end GraphQuery
