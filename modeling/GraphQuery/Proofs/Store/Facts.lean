import GraphQuery.Proofs.Store.Consistency

/-!
# Facts about concepts

A fact about a concept stays true whatever operations follow: what the concept is never changes, no
label is lost, and a datatype is not replaced (`Fact.Holds.evolves`). What an operation that finds or
makes a concept is told is true of the concept.
-/

namespace GraphQuery

/-- One thing that can be said of a concept. -/
inductive Fact where
  /-- The concept is an instance of the type. -/
  | type (type : ConceptId)
  | superType (upper : ConceptId)
  | label (l : Label)
  /-- The concept is the one with the number. -/
  | id (id : ConceptId)
  | valueType (v : ValueType)
  | value (v : Value)
  deriving DecidableEq

def Fact.Holds (s : Store) (concept : ConceptId) : Fact → Prop
  | type t => s.type? concept = some t
  | superType upper => s.superType? concept = some upper
  | label l => s.label? concept = some l
  | id i => concept = i
  | valueType v => s.valueType? concept = some v
  | value v => s.value? concept = some v

namespace Store

variable {s t : Store} {id : ConceptId}

theorem value?_eq_some_iff {v : Value} :
    s.value? id = some v ↔ ∃ type, s.outline? id = some (.member type (some v)) := by
  simp only [outline?_eq_member_iff, value?]
  split <;> simp_all

theorem valueType?_eq_some_iff {v : ValueType} :
    s.valueType? id = some v ↔
      ∃ label superType, s.concept? id = some (.type label superType (some v)) := by
  rw [valueType?]
  split <;> simp_all

theorem Evolves.outline?_eq (h : s.Evolves t) {c : Concept} (hc : s.outline? id = some c) :
    t.outline? id = some c :=
  h.induction (fun _ _ hgrows => hgrows.outline?_eq) hc

theorem Grows.valueType?_eq (h : s.Grows t) {v : ValueType} (hv : s.valueType? id = some v) :
    t.valueType? id = some v := by
  rw [valueType?_eq_some_iff] at hv ⊢
  obtain ⟨label, superType, hconcept⟩ := hv
  have hid : id ≠ s.nextId := by
    rintro rfl
    rw [concept?_nextId] at hconcept
    cases hconcept
  cases h with
  | meetLabel | addHas | addRoleEdge => exact ⟨label, superType, hconcept⟩
  | addType | addMember | addAttribute =>
    exact ⟨label, superType, by rw [concept?_push _ rfl, if_neg hid, hconcept]⟩
  | @extendType _ typeLabel type upper more _ htype =>
    by_cases heq : id = type
    · subst heq
      exact ⟨label, superType <|> upper, by rw [concept?_withTypeInfo hconcept, if_pos rfl]; rfl⟩
    · have hother : (s.withTypeInfo type upper more).concept? id = s.concept? id := by
        cases hknown : s.concept? type with
        | none => simp [withTypeInfo, hknown]
        | some c =>
          cases c with
          | type => rw [concept?_withTypeInfo hknown, if_neg heq]
          | member => simp [withTypeInfo, hknown]
      exact ⟨label, superType, hother.trans hconcept⟩

theorem Evolves.valueType?_eq (h : s.Evolves t) {v : ValueType} (hv : s.valueType? id = some v) :
    t.valueType? id = some v :=
  h.induction (fun _ _ hgrows => hgrows.valueType?_eq) hv

end Store

theorem Fact.Holds.evolves {s t : Store} {concept : ConceptId} {fact : Fact}
    (h : fact.Holds s concept) (hst : s.Evolves t) : fact.Holds t concept := by
  cases fact with
  | type a =>
    obtain ⟨value, houtline⟩ := Store.type?_eq_some_iff.1 h
    exact Store.type?_eq_some_iff.2 ⟨value, hst.outline?_eq houtline⟩
  | superType upper =>
    obtain ⟨label, houtline⟩ := Store.superType?_eq_some_iff.1 h
    exact Store.superType?_eq_some_iff.2 ⟨label, hst.outline?_eq houtline⟩
  | label l =>
    obtain ⟨label, superType, houtline, hl⟩ := Store.label?_eq_some_iff.1 h
    exact Store.label?_eq_some_iff.2 ⟨label, superType, hst.outline?_eq houtline,
      hst.extends.labels _ _ hl⟩
  | id => exact h
  | valueType v => exact hst.valueType?_eq h
  | value v =>
    obtain ⟨type, houtline⟩ := Store.value?_eq_some_iff.1 h
    exact Store.value?_eq_some_iff.2 ⟨type, hst.outline?_eq houtline⟩

namespace Store

variable {s t : Store} {id : ConceptId}

/-- The attribute that is put, or has been, has the type and the value. -/
theorem facts_of_putAttribute (h : s.Reachable) {type : ConceptId} {value : Value}
    (hrun : (putAttribute type value).run.run s = (.ok id, t)) :
    t.type? id = some type ∧ t.value? id = some value := by
  have hspec := triple_iff_run.1 (putAttribute_spec s type value) s rfl
  rw [hrun] at hspec
  rw [attribute_iff]
  obtain ⟨-, -, ⟨hfound, rfl⟩ | ⟨-, rfl, rfl⟩⟩ := hspec
  · exact h.attributesIndexed.index.1 hfound
  · rw [outline?_push (.member type (some value)) rfl, if_pos rfl]
    rfl

theorem type?_of_insertMember {type : ConceptId}
    (hrun : (insertMember type).run.run s = (.ok id, t)) : t.type? id = some type := by
  have hspec := triple_iff_run.1 (insertMember_spec s type) s rfl
  rw [hrun] at hspec
  obtain ⟨rfl, rfl, -⟩ := hspec
  refine type?_eq_some_iff.2 ⟨none, ?_⟩
  rw [outline?_withMember, if_pos rfl]

end Store

end GraphQuery
