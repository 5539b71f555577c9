import GraphQuery.Store.Writing
import Mathlib

/-!
# What operations do to a store

Each operation has a triple, which says what the operation has checked and with which store it ends.
An operation that is refused has at most met a label.
-/

namespace GraphQuery

open Std.Do

set_option mvcgen.warning false

/-- A triple speaks about the runs from all states that it admits. -/
theorem triple_iff_run {ε σ α : Type} {m : ExceptT ε (StateM σ) α} {P : σ → Prop}
    {Q : α → σ → Prop} {E : ε → σ → Prop} :
    ⦃fun s => ⌜P s⌝⦄ m ⦃post⟨fun a t => ⌜Q a t⌝, fun e t => ⌜E e t⌝⟩⦄ ↔
      ∀ s, P s → match m.run.run s with
        | (.ok a, t) => Q a t
        | (.error e, t) => E e t := by
  refine forall_congr' fun s => imp_congr_right fun _ => ?_
  simp only [wp, PredTrans.apply_pushExcept, PredTrans.apply_pushArg]
  have hrun : (StateT.run m.run s).run = m.run.run s := rfl
  rw [hrun]
  rcases m.run.run s with ⟨a | e, t⟩ <;> rfl

/-- What holds after every run that is not refused. -/
theorem triple_of_ok {ε σ α : Type} {m : ExceptT ε (StateM σ) α} {s : σ} {Q : α → σ → Prop}
    (h : ∀ a t, m.run.run s = (.ok a, t) → Q a t) :
    ⦃fun t => ⌜t = s⌝⦄ m ⦃post⟨fun a t => ⌜Q a t⌝, fun _ _ => ⌜True⌝⟩⦄ := by
  rw [triple_iff_run]
  rintro t rfl
  rcases hrun : m.run.run t with ⟨e | a, u⟩
  · trivial
  · exact h a u hrun

/-- The state after a run has what every state has that the triple admits. -/
theorem snd_run_of_triple {ε σ α : Type} {m : ExceptT ε (StateM σ) α} {s : σ}
    {Q : α → σ → Prop} {E : ε → σ → Prop} {R : σ → Prop}
    (h : ⦃fun t => ⌜t = s⌝⦄ m ⦃post⟨fun a t => ⌜Q a t⌝, fun e t => ⌜E e t⌝⟩⦄)
    (hok : ∀ a t, Q a t → R t) (herror : ∀ e t, E e t → R t) : R (m.run.run s).2 := by
  have hrun := triple_iff_run.1 h s rfl
  rcases e : m.run.run s with ⟨a | e, t⟩
  · exact herror _ _ (by simpa [e] using hrun)
  · exact hok _ _ (by simpa [e] using hrun)

namespace Store

/-- The concept is a type with this label and this datatype. -/
def IsType (s : Store) (id : ConceptId) (label : LabelId) (valueType : Option ValueType) : Prop :=
  ∃ superType, s.concept? id = some (.type label superType valueType)

theorem IsType.valueType?_eq {s : Store} {id : ConceptId} {label : LabelId}
    {valueType : Option ValueType} (h : s.IsType id label valueType) :
    s.valueType? id = valueType := by
  obtain ⟨superType, h⟩ := h
  simp only [valueType?, h]

def IsMember (s : Store) (id : ConceptId) : Prop :=
  ∃ type value, s.concept? id = some (.member type value)

/-- The store that has met the label of a role, and the number of the label. -/
def withRole (s : Store) : Option Label → Option LabelId × Store
  | none => (none, s)
  | some l => ((s.withLabel l).1, (s.withLabel l).2)

/-- The store with one more role edge, unless the edge is there already. -/
def putRoleEdge (s : Store) (edge : RoleEdge) : Store :=
  if edge ∈ s.roleEdges then s else s.withRoleEdge edge

variable (s : Store)

theorem checkRange_spec (id : ConceptId) :
    ⦃fun t => ⌜t = s⌝⦄ checkRange id
    ⦃post⟨fun _ t => ⌜t = s ∧ id.number < ConceptId.limit⌝, fun _ t => ⌜t = s⌝⟩⦄ := by
  mvcgen [checkRange]

theorem readType_spec (id : ConceptId) :
    ⦃fun t => ⌜t = s⌝⦄ readType id
    ⦃post⟨fun type t => ⌜t = s ∧ s.IsType id type.1 type.2⌝, fun _ t => ⌜t = s⌝⟩⦄ := by
  mvcgen [readType] with grind [IsType]

theorem checkMember_spec (id : ConceptId) :
    ⦃fun t => ⌜t = s⌝⦄ checkMember id
    ⦃post⟨fun _ t => ⌜t = s ∧ s.IsMember id⌝, fun _ t => ⌜t = s⌝⟩⦄ := by
  mvcgen [checkMember] with grind [IsMember]

theorem contains_spec (id : ConceptId) :
    ⦃fun t => ⌜t = s⌝⦄ contains id
    ⦃post⟨fun found t => ⌜t = s ∧ id.number < ConceptId.limit ∧ found = (s.concept? id).isSome⌝,
      fun _ t => ⌜t = s⌝⟩⦄ := by
  mvcgen [contains, checkRange_spec] with grind

theorem extendType_spec (l : Label) (id : ConceptId) (superType : Option ConceptId)
    (valueType : Option ValueType) :
    ⦃fun t => ⌜t = s⌝⦄ extendType l id superType valueType
    ⦃post⟨fun _ t => ⌜t = s.withTypeInfo id superType valueType ∧
        (superType.isSome → s.superType? id = superType) ∧
        (valueType.isSome → (s.valueType? id).isSome → s.valueType? id = valueType)⌝,
      fun _ t => ⌜t = s⌝⟩⦄ := by
  mvcgen [extendType] with grind

theorem insertMember_spec (type : ConceptId) :
    ⦃fun t => ⌜t = s⌝⦄ insertMember type
    ⦃post⟨fun id t => ⌜id = s.nextId ∧ t = s.withMember type none ∧
        type.number < ConceptId.limit ∧ ∃ label, s.IsType type label none⌝,
      fun _ t => ⌜t = s⌝⟩⦄ := by
  mvcgen [insertMember, checkRange_spec, readType_spec] with try grind
  rename_i known _ hvalue _ _ _
  rw [Option.not_isSome_iff_eq_none] at hvalue
  refine ⟨?_, ?_, ?_, known.1, ?_⟩ <;> grind

theorem putAttribute_spec (type : ConceptId) (value : Value) :
    ⦃fun t => ⌜t = s⌝⦄ putAttribute type value
    ⦃post⟨fun id t => ⌜type.number < ConceptId.limit ∧
        (∃ label valueType, s.IsType type label valueType ∧
          ∀ expected, valueType = some expected → expected = value.type) ∧
        (s.attributesByValue.lookup (type, value) = some id ∧ t = s ∨
          s.attributesByValue.lookup (type, value) = none ∧ id = s.nextId ∧
            t = s.withAttribute type value)⌝,
      fun _ t => ⌜t = s⌝⟩⦄ := by
  mvcgen [putAttribute, checkRange_spec, readType_spec] with grind

theorem addHas_spec (owner owned : ConceptId) :
    ⦃fun t => ⌜t = s⌝⦄ addHas owner owned
    ⦃post⟨fun _ t => ⌜t = s.withHas owner owned ∧ s.IsMember owner ∧ s.IsMember owned⌝,
      fun _ t => ⌜t = s⌝⟩⦄ := by
  mvcgen [addHas, checkRange_spec, checkMember_spec] with grind

/-- The label of a role is met before the check that both ends of the edge are instances. -/
theorem addRolePlayer_spec (relation : ConceptId) (role : Option Label) (player : ConceptId) :
    ⦃fun t => ⌜t = s⌝⦄ addRolePlayer relation role player
    ⦃post⟨fun _ t => ⌜(s.withRole role).2.IsMember relation ∧ (s.withRole role).2.IsMember player ∧
        t = (s.withRole role).2.putRoleEdge ⟨relation, (s.withRole role).1, player⟩⌝,
      fun _ t => ⌜t = s ∨ t = (s.withRole role).2⌝⟩⦄ := by
  cases role
  case none =>
    simp only [addRolePlayer, Option.mapM_none, pure_bind]
    mvcgen [checkRange_spec, checkMember_spec] with grind [withRole, putRoleEdge]
  case some l =>
    simp only [addRolePlayer, Option.mapM_some]
    mvcgen [checkRange_spec, checkMember_spec] with grind [withRole, putRoleEdge]

theorem defineType_spec (l : Label) (superType : Option ConceptId) (valueType : Option ValueType) :
    ⦃fun t => ⌜t = s⌝⦄ defineType l superType valueType
    ⦃post⟨fun id t => ⌜
        let label := (s.withLabel l).1
        let met := (s.withLabel l).2
        (∀ upper ∈ superType, upper.number < ConceptId.limit ∧
          ∃ upperLabel upperValue, met.IsType upper upperLabel upperValue) ∧
        (met.typesByLabel.get? label = some id ∧ t = met.withTypeInfo id superType valueType ∧
            (superType.isSome → met.superType? id = superType) ∧
            (valueType.isSome → (met.valueType? id).isSome → met.valueType? id = valueType) ∨
          met.typesByLabel.get? label = none ∧ id = met.nextId ∧
            t = met.withType label superType (valueType <|> superType.bind met.valueType?))⌝,
      fun _ t => ⌜t = (s.withLabel l).2⌝⟩⦄ := by
  cases superType
  case none =>
    simp only [defineType, Option.forM, pure_bind]
    mvcgen [extendType_spec] with grind
  case some upper =>
    simp only [defineType, Option.forM]
    mvcgen [checkRange_spec, readType_spec, extendType_spec] with try grind
    rename_i known _ hknown _ _
    have hvalue := hknown.2.valueType?_eq
    grind

end Store

end GraphQuery
