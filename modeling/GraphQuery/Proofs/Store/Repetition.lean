import GraphQuery.Proofs.Store.Definition
import GraphQuery.Proofs.Store.Permanence

/-!
# Repeated calls

What a call leaves in a store that does not refuse it, but for an instance without a value, is found
when the call is repeated (`Operation.Done`), and no calls between the two take it away. So a call
that has succeeded once succeeds again with the same reply and changes nothing (`repeat_unnoticed`).
-/

namespace GraphQuery.Store

variable {s t u : Store} {op : Operation} {r : Reply}

theorem run_checkMember {id : ConceptId} (h : s.IsMember id) :
    (checkMember id).run.run s = (.ok ⟨⟩, s) := by
  obtain ⟨type, value, h⟩ := h
  rw [checkMember, run_bind_of_ok (run_get s), h]
  rfl

theorem run_putAttribute_of_found {type id : ConceptId} {value : Value} (htype : s.NamesType type)
    (hvalue : ∀ expected ∈ s.valueType? type, expected = value.type)
    (hfound : s.attributesByValue.lookup (type, value) = some id) :
    (putAttribute type value).run.run s = (.ok id, s) := by
  obtain ⟨label, hlabel⟩ := htype.isType
  rw [putAttribute, run_bind_of_ok (run_checkRange htype.1 s), run_bind_of_ok (run_readType hlabel),
    run_bind_of_ok (run_get s)]
  cases hexpected : s.valueType? type with
  | none =>
    rw [hfound]
    rfl
  | some expected =>
    dsimp only
    rw [if_neg (not_not.2 (hvalue expected hexpected)), hfound]
    rfl

theorem run_addHas {owner owned : ConceptId} (howner : owner.number < ConceptId.limit)
    (howned : owned.number < ConceptId.limit) (hends : s.IsMember owner ∧ s.IsMember owned) :
    (addHas owner owned).run.run s = (.ok ⟨⟩, s.withHas owner owned) := by
  rw [addHas, run_bind_of_ok (run_checkRange howner s), run_bind_of_ok (run_checkRange howned s),
    run_bind_of_ok (run_checkMember hends.1), run_bind_of_ok (run_checkMember hends.2)]
  rfl

theorem run_withRole (s : Store) (role : Option Label) :
    (role.mapM fun l => modifyGet (·.withLabel l) : StoreM (Option LabelId)).run.run s =
      (.ok (s.withRole role).1, (s.withRole role).2) := by
  cases role <;> rfl

theorem run_addRolePlayer {relation player : ConceptId} {role : Option Label}
    (hrelation : relation.number < ConceptId.limit) (hplayer : player.number < ConceptId.limit)
    (hends : (s.withRole role).2.IsMember relation ∧ (s.withRole role).2.IsMember player) :
    (addRolePlayer relation role player).run.run s =
      (.ok ⟨⟩, (s.withRole role).2.putRoleEdge ⟨relation, (s.withRole role).1, player⟩) := by
  rw [addRolePlayer, run_bind_of_ok (run_checkRange hrelation s),
    run_bind_of_ok (run_checkRange hplayer s), run_bind_of_ok (run_withRole s role),
    run_bind_of_ok (run_checkMember hends.1), run_bind_of_ok (run_checkMember hends.2)]
  rfl

/-- A computation that begins with a check and succeeds has passed the check. -/
theorem ok_of_checkRange_bind {α : Type} {id : ConceptId} {f : PUnit → StoreM α} {a : α}
    (hrun : (checkRange id >>= f).run.run s = (.ok a, t)) :
    id.number < ConceptId.limit ∧ (f ⟨⟩).run.run s = (.ok a, t) := by
  obtain ⟨⟨⟩, u, hcheck, hrest⟩ := ok_of_bind hrun
  have hspec := triple_iff_run.1 (checkRange_spec s id) s rfl
  rw [hcheck] at hspec
  obtain ⟨rfl, hrange⟩ := hspec
  exact ⟨hrange, hrest⟩

theorem ok_of_map {α : Type} {f : α → Reply} {m : StoreM α}
    (hrun : (f <$> m).run.run s = (.ok r, t)) : ∃ a, f a = r ∧ m.run.run s = (.ok a, t) := by
  rw [← bind_pure_comp] at hrun
  obtain ⟨a, u, hm, hrun⟩ := ok_of_bind hrun
  cases hrun
  exact ⟨a, rfl, hm⟩

theorem evolves_of_exec {r : Except StoreError Reply} (hrun : op.exec.run.run s = (r, t)) :
    s.Evolves t := by
  have hevolves := (Call.write op).evolves s
  rwa [Call.exec, hrun] at hevolves

/-- All that the call would add is there, and the reply tells where. -/
def Operation.Done (s : Store) (r : Reply) : Operation → Prop
  | defineType l superType valueType => ∃ id, .concept id = r ∧ s.typeWithLabel? l = some id ∧
      (∀ upper ∈ superType, s.NamesType upper) ∧ (s.typeInfo id).Knows ⟨superType, valueType⟩
  | insertMember _ => False
  | putAttribute type value => ∃ id, .concept id = r ∧ s.NamesType type ∧
      s.type? id = some type ∧ s.value? id = some value
  | addHas owner owned => .done = r ∧ owner.number < ConceptId.limit ∧
      owned.number < ConceptId.limit ∧ owned ∈ s.attributes owner
  | addRolePlayer relation role player => .done = r ∧ relation.number < ConceptId.limit ∧
      player.number < ConceptId.limit ∧ (role, player) ∈ s.players relation

/-- Where the call puts an attribute, the value is one of the datatype that the type has. -/
def Operation.Fits (s : Store) : Operation → Prop
  | putAttribute type value => ∀ expected ∈ s.valueType? type, expected = value.type
  | _ => True

theorem NamesType.evolves {id : ConceptId} (h : s.NamesType id) (hst : s.Evolves t) :
    t.NamesType id := by
  obtain ⟨label, superType, hconcept⟩ := h.isType
  have houtline := hst.outline?_eq (outline?_eq_type_iff.2 ⟨_, hconcept⟩)
  obtain ⟨valueType, hlater⟩ := outline?_eq_type_iff.1 houtline
  exact ⟨h.1, exists_isType_iff.1 ⟨label, valueType, superType, hlater⟩⟩

/-- What is there stays. -/
theorem Operation.Done.evolves (h : op.Done s r) (hs : s.Reachable) (hst : s.Evolves t) :
    op.Done t r := by
  cases op with
  | defineType l superType valueType =>
    obtain ⟨id, hr, hid, hsuper, hknows⟩ := h
    have hlt := lt_size_of_label? ((hs.consistent.typeWithLabel l id).1 hid)
    refine ⟨id, hr, hst.typeWithLabel?_eq hs hid, fun upper hupper => ?_, fun upper hupper => ?_,
      fun v hv => ?_⟩
    · exact (hsuper upper hupper).evolves hst
    · exact (hst.superType?_eq hlt).trans (hknows.superType upper hupper)
    · exact hst.valueType?_eq (hknows.valueType v hv)
  | insertMember => exact h
  | putAttribute type value =>
    obtain ⟨id, hr, htype, hmember⟩ := h
    have hlater := hst.outline?_eq (attribute_iff.1 hmember)
    exact ⟨id, hr, htype.evolves hst, attribute_iff.2 hlater⟩
  | addHas owner owned =>
    obtain ⟨hr, howner, howned, howns⟩ := h
    exact ⟨hr, howner, howned, hst.extends.attributes owner owned howns⟩
  | addRolePlayer relation role player =>
    obtain ⟨hr, hrelation, hplayer, hplays⟩ := h
    exact ⟨hr, hrelation, hplayer, (hst.players_prefix hs relation).subset hplays⟩

theorem fits_of_putAttribute {type id : ConceptId} {value : Value}
    (hrun : (putAttribute type value).run.run s = (.ok id, t)) :
    ∀ expected ∈ t.valueType? type, expected = value.type := by
  have hspec := triple_iff_run.1 (putAttribute_spec s type value) s rfl
  rw [hrun] at hspec
  obtain ⟨-, ⟨label, valueType, htype, hvalue⟩, hfound⟩ := hspec
  have hsame : t.valueType? type = valueType := by
    obtain ⟨-, rfl⟩ | ⟨-, -, rfl⟩ := hfound
    · exact htype.valueType?_eq
    · have hne : type ≠ s.nextId := by
        rintro rfl
        obtain ⟨superType, htype⟩ := htype
        rw [concept?_nextId] at htype
        cases htype
      rw [valueType?_eq_bind, (adds_withAttribute s type value).described?, if_neg hne,
        ← valueType?_eq_bind, htype.valueType?_eq]
  rwa [hsame]

/-- A call that succeeds leaves what it would add. -/
theorem done_of_ok (h : s.Reachable) (hop : ∀ type, op ≠ .insertMember type)
    (hrun : op.exec.run.run s = (.ok r, t)) : op.Done t r ∧ op.Fits t := by
  have hst := evolves_of_exec hrun
  have ht : t.Reachable := h.trans hst
  cases op with
  | defineType l superType valueType =>
    obtain ⟨id, hr, hrun⟩ := ok_of_map hrun
    have hmore := accepts_of_run ⟨superType, valueType⟩ h hrun
    obtain ⟨hlabel, hsuper, hvalue⟩ := facts_of_defineType h hrun
    have hid := (ht.consistent.typeWithLabel l id).2 hlabel
    have hnames : ∀ upper ∈ superType, t.NamesType upper := fun upper hupper =>
      (hmore.superType upper hupper).evolves hst
    exact ⟨⟨id, hr, hid, hnames, hsuper, hvalue⟩, trivial⟩
  | insertMember type => exact absurd rfl (hop type)
  | putAttribute type value =>
    obtain ⟨id, hr, hrun⟩ := ok_of_map hrun
    have hspec := triple_iff_run.1 (putAttribute_spec s type value) s rfl
    rw [hrun] at hspec
    obtain ⟨hrange, ⟨label, valueType, htype, hvalue⟩, -⟩ := hspec
    have hnames : s.NamesType type := ⟨hrange, exists_isType_iff.1 ⟨label, valueType, htype⟩⟩
    exact ⟨⟨id, hr, hnames.evolves hst, facts_of_putAttribute h hrun⟩, fits_of_putAttribute hrun⟩
  | addHas owner owned =>
    obtain ⟨⟨⟩, hr, hrun⟩ := ok_of_map hrun
    have howns := owns_of_addHas hrun
    obtain ⟨howner, hrun⟩ := ok_of_checkRange_bind hrun
    obtain ⟨howned, hrun⟩ := ok_of_checkRange_bind hrun
    exact ⟨⟨hr, howner, howned, howns.1⟩, trivial⟩
  | addRolePlayer relation role player =>
    obtain ⟨⟨⟩, hr, hrun⟩ := ok_of_map hrun
    have hplays := (hasEdge_of_addRolePlayer h.edgesIndexed hrun).plays
    obtain ⟨hrelation, hrun⟩ := ok_of_checkRange_bind hrun
    obtain ⟨hplayer, hrun⟩ := ok_of_checkRange_bind hrun
    exact ⟨⟨hr, hrelation, hplayer, hplays.1⟩, trivial⟩

theorem alike_withHas (h : s.Indexed) {owner owned : ConceptId}
    (howned : owned ∈ s.attributes owner) : s.Alike (s.withHas owner owned) where
  left := h
  right := by
    obtain ⟨howner, howned⟩ := h.ownershipIndexed.ends howned
    exact (Grows.addHas howner howned).indexed h
  described? _ := rfl
  attributes a := by
    refine SortedSet.ext fun b => ?_
    rw [mem_attributes_withHas]
    constructor
    · exact .inr
    · rintro (⟨rfl, rfl⟩ | hb)
      · exact howned
      · exact hb
  playings := rfl

theorem mem_players_iff (h : s.Reachable) {relation player : ConceptId} {role : Option Label} :
    (role, player) ∈ s.players relation ↔ ⟨relation, role, player⟩ ∈ s.playings := by
  rw [h.consistent.players_eq, List.mem_map]
  simp only [List.mem_filter, decide_eq_true_eq, Prod.mk.injEq]
  constructor
  · rintro ⟨⟨_, _, _⟩, ⟨hplaying, rfl⟩, rfl, rfl⟩
    exact hplaying
  · intro hplaying
    exact ⟨_, ⟨hplaying, rfl⟩, rfl, rfl⟩

theorem described?_eq_type {id : ConceptId} {l : Label} (hl : s.label? id = some l) :
    s.described? id = some (.type l (s.superType? id) (s.valueType? id)) := by
  rw [label?_eq_bind] at hl
  obtain ⟨d, hd, hl⟩ := Option.bind_eq_some_iff.1 hl
  rw [superType?_eq_bind, valueType?_eq_bind, hd]
  cases d with
  | type label superType valueType =>
    obtain rfl : label = some l := hl
    rfl
  | member => cases hl

/-- Where all that a call says of a type is known, it finds the type and changes nothing. -/
theorem exists_run_defineType_of_knows (more : TypeInfo) (h : s.Reachable) {id : ConceptId}
    {l : Label} (hid : s.typeWithLabel? l = some id)
    (hsuper : ∀ upper ∈ more.superType, s.NamesType upper) (hknows : (s.typeInfo id).Knows more) :
    ∃ t, (defineType l more.superType more.valueType).run.run s = (.ok id, t) ∧ s.Alike t := by
  have hmore : s.Accepts l more := by
    refine ⟨hsuper, fun known hknown => ?_⟩
    cases hid.symm.trans hknown
    exact hknows.admits
  obtain ⟨t, hrun, ht⟩ := exists_run_defineType h hmore
  rw [numberFor_of_some hid] at hrun ht
  rw [told_of_some hid, hknows.join_eq] at ht
  have hself := described?_eq_type ((h.consistent.typeWithLabel l id).1 hid)
  have hsame : s.DiffersAt s id (.type l (s.superType? id) (s.valueType? id)) := by
    refine ⟨h.indexed, fun a => ?_, fun _ => rfl, rfl⟩
    split
    · rename_i ha
      rw [ha, hself]
    · rfl
  exact ⟨t, hrun, hsame.alike ht⟩

theorem Operation.Done.run (hdone : op.Done s r) (h : s.Reachable) (hfits : op.Fits s) :
    ∃ t, op.exec.run.run s = (.ok r, t) ∧ s.Alike t := by
  cases op with
  | defineType l superType valueType =>
    obtain ⟨id, rfl, hid, hsuper, hknows⟩ := hdone
    obtain ⟨t, hrun, halike⟩ :=
      exists_run_defineType_of_knows ⟨superType, valueType⟩ h hid hsuper hknows
    refine ⟨t, ?_, halike⟩
    rw [exec, run_map, hrun]
    rfl
  | insertMember => exact hdone.elim
  | putAttribute type value =>
    obtain ⟨id, rfl, htype, hmember⟩ := hdone
    have hfound := (h.consistent.attributesByValue type value id).2 hmember
    refine ⟨s, ?_, .refl h.indexed⟩
    rw [exec, run_map, run_putAttribute_of_found htype hfits hfound]
    rfl
  | addHas owner owned =>
    obtain ⟨rfl, howner, howned, howns⟩ := hdone
    refine ⟨_, ?_, alike_withHas h.indexed howns⟩
    rw [exec, run_map, run_addHas howner howned (h.consistent.ownershipEnds owner owned howns)]
    rfl
  | addRolePlayer relation role player =>
    obtain ⟨rfl, hrelation, hplayer, hplays⟩ := hdone
    have halike := alike_withRole h.indexed role
    have hedges := h.roleEdgesIndexed.withRole role
    rw [mem_players_iff h, halike.playings,
      mem_playings_iff hedges (label?_withRole s role)] at hplays
    refine ⟨_, ?_, halike⟩
    rw [exec, run_map, run_addRolePlayer hrelation hplayer (hedges.ends _ hplays), putRoleEdge,
      if_pos hplays]
    rfl

/-- A call that has succeeded succeeds again with the same reply and changes nothing, whatever calls
have been made since. Only the type of an attribute must not have got a datatype in between. -/
theorem repeat_unnoticed (h : s.Reachable) (hop : ∀ type, op ≠ .insertMember type)
    (hrun : op.exec.run.run s = (.ok r, t)) (calls : List Call)
    (hdatatype : ∀ type value, op = .putAttribute type value →
      (t.afterCalls calls).valueType? type = t.valueType? type) :
    ∃ u, op.exec.run.run (t.afterCalls calls) = (.ok r, u) ∧ (t.afterCalls calls).LooksLike u := by
  obtain ⟨hdone, hfits⟩ := done_of_ok h hop hrun
  have ht : t.Reachable := h.trans (evolves_of_exec hrun)
  have hlater := evolves_afterCalls t calls
  have hstill : op.Fits (t.afterCalls calls) := by
    cases op with
    | putAttribute type value =>
      rw [Operation.Fits, hdatatype type value rfl]
      exact hfits
    | _ => trivial
  obtain ⟨u, hrepeat, halike⟩ := (hdone.evolves ht hlater).run (ht.trans hlater) hstill
  exact ⟨u, hrepeat, halike.looksLike⟩

/-- A name is put again after the datatype of names has been refused another one and a subtype of
names has been defined. -/
theorem repeat_unnoticed_name :
    let s := after [.defineType ⟨"name"⟩ none (some .string)]
    let op : Operation := .putAttribute ⟨0⟩ (.string "Ada")
    let calls : List Call := [.write (.defineType ⟨"name"⟩ none (some .long)),
      .write (.defineType ⟨"nickname"⟩ (some ⟨0⟩) none)]
    ∃ t u, op.exec.run.run s = (.ok (.concept ⟨1⟩), t) ∧
      op.exec.run.run (t.afterCalls calls) = (.ok (.concept ⟨1⟩), u) ∧
      (t.afterCalls calls).LooksLike u := by
  intro s op calls
  have hreply : (op.exec.run.run s).1 = .ok (.concept ⟨1⟩) := by rfl
  have hrun : op.exec.run.run s = (.ok (.concept ⟨1⟩), (op.exec.run.run s).2) :=
    Prod.ext hreply rfl
  have hdatatype : ∀ type value, op = .putAttribute type value →
      ((op.exec.run.run s).2.afterCalls calls).valueType? type =
        (op.exec.run.run s).2.valueType? type := by
    intro type value hput
    obtain ⟨rfl, rfl⟩ := Operation.putAttribute.inj hput
    rfl
  have hop : ∀ type, op ≠ .insertMember type := by simp [op]
  obtain ⟨u, hrepeat⟩ := repeat_unnoticed (reachable_after _) hop hrun calls hdatatype
  exact ⟨_, u, hrun, hrepeat⟩

end GraphQuery.Store
