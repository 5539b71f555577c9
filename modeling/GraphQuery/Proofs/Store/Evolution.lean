import GraphQuery.Proofs.Store.Operation
import Mathlib.Logic.Relation

/-!
# How stores evolve

A store is reachable if calls of operations lead to it from the empty store, refused calls included.
Each call takes at most two steps of growth, and a step is only taken under the checks that the
operation makes before. So what all steps preserve holds in every reachable store.
-/

namespace GraphQuery.Store

open Std.Do

/-- A call of an operation that writes. -/
inductive Operation where
  | defineType (l : Label) (superType : Option ConceptId) (valueType : Option ValueType)
  | insertMember (type : ConceptId)
  | putAttribute (type : ConceptId) (value : Value)
  | addHas (owner owned : ConceptId)
  | addRolePlayer (relation : ConceptId) (role : Option Label) (player : ConceptId)

/-- The store that a call leaves, whether or not it is refused. -/
def Operation.run (s : Store) : Operation → Store
  | defineType l superType valueType => ((Store.defineType l superType valueType).run.run s).2
  | insertMember type => ((Store.insertMember type).run.run s).2
  | putAttribute type value => ((Store.putAttribute type value).run.run s).2
  | addHas owner owned => ((Store.addHas owner owned).run.run s).2
  | addRolePlayer relation role player => ((Store.addRolePlayer relation role player).run.run s).2

def Evolves : Store → Store → Prop := Relation.ReflTransGen fun s t => ∃ op, Operation.run s op = t

def Reachable (s : Store) : Prop := Evolves empty s

/-- A step in which a store grows, with what has been checked before. -/
inductive Grows (s : Store) : Store → Prop
  | meetLabel (l : Label) : Grows s (s.withLabel l).2
  | addType {l : Label} {label : LabelId} {superType : Option ConceptId}
      {valueType : Option ValueType} (hlabel : s.labels.idOf? l = some label)
      (hnew : s.typesByLabel.get? label = none)
      (hsuper : ∀ upper ∈ superType, ∃ upperLabel upperValue, s.IsType upper upperLabel upperValue) :
      Grows s (s.withType label superType (valueType <|> superType.bind s.valueType?))
  | extendType {l : Label} {label : LabelId} {id : ConceptId} {superType : Option ConceptId}
      {valueType : Option ValueType} (hlabel : s.labels.idOf? l = some label)
      (hid : s.typesByLabel.get? label = some id)
      (hsuper : superType.isSome → s.superType? id = superType)
      (hvalue : valueType.isSome → (s.valueType? id).isSome → s.valueType? id = valueType) :
      Grows s (s.withTypeInfo id superType valueType)
  | addMember {type : ConceptId} {label : LabelId} (htype : s.IsType type label none) :
      Grows s (s.withMember type none)
  | addAttribute {type : ConceptId} {label : LabelId} {valueType : Option ValueType} {value : Value}
      (htype : s.IsType type label valueType)
      (hvalue : ∀ expected, valueType = some expected → expected = value.type)
      (hnew : s.attributesByValue.lookup (type, value) = none) :
      Grows s (s.withAttribute type value)
  | addHas {owner owned : ConceptId} (howner : s.IsMember owner) (howned : s.IsMember owned) :
      Grows s (s.withHas owner owned)
  | addRoleEdge {edge : RoleEdge} (hrole : ∀ role ∈ edge.role, ∃ l, s.labels.idOf? l = some role)
      (hrelation : s.IsMember edge.relation) (hplayer : s.IsMember edge.player)
      (hnew : edge ∉ s.roleEdges) :
      Grows s (s.withRoleEdge edge)

theorem idOf?_withLabel (s : Store) (l : Label) :
    (s.withLabel l).2.labels.idOf? l = some (s.withLabel l).1 :=
  s.labels.idOf?_intern l

theorem Operation.grows (s : Store) (op : Operation) :
    Relation.ReflTransGen Grows s (op.run s) := by
  cases op with
  | defineType l superType valueType =>
    have hlabel : Grows s (s.withLabel l).2 := .meetLabel l
    refine snd_run_of_triple (defineType_spec s l superType valueType) ?_ ?_
    · rintro id t ⟨hsuper, ⟨hid, rfl, hupper, hvalue⟩ | ⟨hnew, -, rfl⟩⟩
      · exact .tail (.single hlabel) (.extendType (idOf?_withLabel s l) hid hupper hvalue)
      · exact .tail (.single hlabel)
          (.addType (idOf?_withLabel s l) hnew fun upper h => (hsuper upper h).2)
    · rintro e t rfl
      exact .single hlabel
  | insertMember type =>
    refine snd_run_of_triple (insertMember_spec s type) ?_ ?_
    · rintro id t ⟨-, rfl, -, label, htype⟩
      exact .single (.addMember htype)
    · rintro e t rfl
      exact .refl
  | putAttribute type value =>
    refine snd_run_of_triple (putAttribute_spec s type value) ?_ ?_
    · rintro id t ⟨-, ⟨label, valueType, htype, hvalue⟩, ⟨-, rfl⟩ | ⟨hnew, -, rfl⟩⟩
      · exact .refl
      · exact .single (.addAttribute htype hvalue hnew)
    · rintro e t rfl
      exact .refl
  | addHas owner owned =>
    refine snd_run_of_triple (addHas_spec s owner owned) ?_ ?_
    · rintro - t ⟨rfl, howner, howned⟩
      exact .single (.addHas howner howned)
    · rintro e t rfl
      exact .refl
  | addRolePlayer relation role player =>
    have hrole : Relation.ReflTransGen Grows s (s.withRole role).2 := by
      cases role with
      | none => exact .refl
      | some l => exact .single (.meetLabel l)
    refine snd_run_of_triple (addRolePlayer_spec s relation role player) ?_ ?_
    · rintro - t ⟨hrelation, hplayer, rfl⟩
      rw [putRoleEdge]
      split
      · exact hrole
      · rename_i hnew
        refine .tail hrole (.addRoleEdge ?_ hrelation hplayer hnew)
        cases role with
        | none => simp [withRole]
        | some l => simpa [withRole] using ⟨l, idOf?_withLabel s l⟩
    · rintro e t (rfl | rfl)
      · exact .refl
      · exact hrole

theorem Evolves.refl (s : Store) : s.Evolves s := Relation.ReflTransGen.refl

theorem Evolves.trans {s t u : Store} (h : s.Evolves t) (k : t.Evolves u) : s.Evolves u :=
  Relation.ReflTransGen.trans h k

theorem Operation.evolves (s : Store) (op : Operation) : s.Evolves (op.run s) :=
  Relation.ReflTransGen.single ⟨op, rfl⟩

theorem Evolves.grows {s t : Store} (h : s.Evolves t) : Relation.ReflTransGen Grows s t := by
  rw [Evolves] at h
  induction h with
  | refl => exact .refl
  | tail _ hstep ih =>
    obtain ⟨op, rfl⟩ := hstep
    exact ih.trans (op.grows _)

/-- What a store has and every step of growth preserves, all stores that it evolves into have. -/
theorem Evolves.induction {P : Store → Prop} {s t : Store} (h : s.Evolves t)
    (hgrows : ∀ s t, s.Grows t → P s → P t) (hs : P s) : P t := by
  have hgrow := h.grows
  clear h
  induction hgrow with
  | refl => exact hs
  | tail _ hstep ih => exact hgrows _ _ hstep ih

/-- What the empty store has and every step of growth preserves holds in all reachable stores. -/
theorem Reachable.induction {P : Store → Prop} (hempty : P empty)
    (hgrows : ∀ s t, s.Grows t → P s → P t) {s : Store} (h : s.Reachable) : P s :=
  Evolves.induction h hgrows hempty

/-- A call leads to the store that it leaves. -/
theorem evolves_spec {α : Type} {m : StoreM α} {s : Store} (op : Operation)
    (hop : (m.run.run s).2 = op.run s) :
    ⦃fun t => ⌜t = s⌝⦄ m ⦃post⟨fun _ t => ⌜s.Evolves t⌝, fun _ t => ⌜s.Evolves t⌝⟩⦄ := by
  rw [triple_iff_run]
  rintro t ht
  have h := op.evolves s
  rw [← hop] at h
  rw [ht]
  rcases hrun : m.run.run s with ⟨a | e, u⟩ <;> rwa [hrun] at h

end GraphQuery.Store
