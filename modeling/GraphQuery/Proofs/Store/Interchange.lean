import GraphQuery.Proofs.Store.Definition

/-!
# Defining one type by two calls

A type may be defined by two calls, one of which gives its supertype and one its datatype, say.
Which of them comes first can matter: a type that is there without a supertype is refused one, while
a datatype may be given to it later. Main statement: two calls may be interchanged exactly if they
consent (`definitions_commute_iff`), and to define a new type they must give the same supertype.
-/

namespace GraphQuery

theorem Agree.symm {α : Type} {x y : Option α} (h : Agree x y) : Agree y x :=
  fun a ha b hb => (h b hb a ha).symm

theorem Agree.orElse {α : Type} {x y z : Option α} (hx : Agree x z) (hy : Agree y z) :
    Agree (x <|> y) z := by
  cases x with
  | none => exact hy
  | some => exact hx

/-- With the same to fall back on, each of two sources has what the other one lacks. -/
theorem agree_orElse_iff {α : Type} {x y z : Option α} :
    Agree (x <|> z) y ∧ Agree (y <|> z) x ↔ Agree x y ∧ (x = y ∨ Agree z x ∧ Agree z y) := by
  cases x <;> cases y <;> simp +contextual [Agree, eq_comm]

theorem orElse_right_comm {α : Type} {x y z : Option α} (h : Agree (x <|> z) y)
    (h' : Agree (y <|> z) x) : ((x <|> z) <|> y) = ((y <|> z) <|> x) := by
  cases x <;> cases y <;> cases z <;> simp_all [Agree]

theorem orElse_left_comm {α : Type} {x y z : Option α} (h : Agree x y) :
    ((z <|> x) <|> y) = ((z <|> y) <|> x) := by
  cases x <;> cases y <;> cases z <;> simp_all [Agree]

theorem eq_of_isSome_imp {α : Type} {x y : Option α} (h : y.isSome → x = y)
    (h' : x.isSome → y = x) : x = y := by
  cases y with
  | some b => exact h rfl
  | none =>
    cases x with
    | some a => exact (h' rfl).symm
    | none => rfl

namespace Store

theorem inherited_congr (s : Store) {a b : TypeInfo} (h : a.superType = b.superType) :
    s.inherited a = s.inherited b := by
  rw [inherited, inherited, h]

variable {s t u : Store} {id : ConceptId} {l : Label} {a b : TypeInfo}

/-- Two calls for the type with a label, one after the other. -/
def defineTwice (l : Label) (a b : TypeInfo) : StoreM (ConceptId × ConceptId) := do
  let first ← defineType l a.superType a.valueType
  let second ← defineType l b.superType b.valueType
  return (first, second)

/-- In either order the calls succeed, with the same type and stores of which the same is read. -/
def Commute (s : Store) (l : Label) (a b : TypeInfo) : Prop :=
  ∃ id t u, (defineTwice l a b).run.run s = (.ok (id, id), t) ∧
    (defineTwice l b a).run.run s = (.ok (id, id), u) ∧ t.LooksLike u

/-- Neither of two calls gives anything that, once it is known, the other one contradicts. -/
structure Consent (s : Store) (l : Label) (a b : TypeInfo) : Prop where
  superTypes : ∀ upper, upper ∈ a.superType ∨ upper ∈ b.superType → s.NamesType upper
  valueTypes : Agree a.valueType b.valueType
  known : ∀ id, s.typeWithLabel? l = some id →
    (s.typeInfo id).Admits a ∧ (s.typeInfo id).Admits b
  /-- Whichever call comes first gives the new type its supertype and all that comes with it. -/
  new : s.typeWithLabel? l = none → a.superType = b.superType ∧
    (a.valueType = b.valueType ∨
      Agree (s.inherited a) a.valueType ∧ Agree (s.inherited a) b.valueType)

/-- If the second call gives what is admitted after the first, both succeed. -/
theorem exists_run_defineTwice (h : s.Reachable) (ha : s.Accepts l a)
    (hb : ∀ upper ∈ b.superType, s.NamesType upper) (hab : (s.told l a).Admits b) :
    ∃ t, (defineTwice l a b).run.run s = (.ok (s.numberFor l, s.numberFor l), t) ∧
      s.DiffersAt t (s.numberFor l)
        (.type l ((s.told l a).join b).superType ((s.told l a).join b).valueType) := by
  obtain ⟨t, hfirst, ht⟩ := exists_run_defineType h ha
  have hid := ht.typeWithLabel?_self
  have hinfo : t.typeInfo (s.numberFor l) = s.told l a := ht.typeInfo_self
  have hb : t.Accepts l b := by
    refine ⟨fun upper hupper => ht.namesType (hb upper hupper), fun id hid' => ?_⟩
    cases hid.symm.trans hid'
    rwa [hinfo]
  obtain ⟨u, hsecond, hu⟩ := exists_run_defineType (h.of_defineType hfirst) hb
  rw [numberFor_of_some hid] at hsecond hu
  rw [told_of_some hid, hinfo] at hu
  refine ⟨u, ?_, ht.trans hu⟩
  rw [defineTwice, run_bind_of_ok hfirst, run_bind_of_ok hsecond]
  rfl

theorem accepts_of_defineTwice (h : s.Reachable) {ids : ConceptId × ConceptId}
    (hrun : (defineTwice l a b).run.run s = (.ok ids, u)) :
    s.Accepts l a ∧ (s.told l a).Admits b := by
  obtain ⟨first, t, hfirst, hrun⟩ := ok_of_bind hrun
  obtain ⟨second, v, hsecond, -⟩ := ok_of_bind hrun
  obtain ⟨ha, -, ht⟩ := defineType_cases a h hfirst
  obtain ⟨hb, -, -⟩ := defineType_cases b (h.of_defineType hfirst) hsecond
  have hadmits := hb.known first ht.typeWithLabel?_self
  rw [ht.typeInfo_self] at hadmits
  exact ⟨ha, hadmits⟩

/-- What becomes of the type does not depend on the order of two calls that both orders admit. -/
theorem told_join_comm (hab : (s.told l a).Admits b) (hba : (s.told l b).Admits a)
    (hvalues : Agree a.valueType b.valueType) :
    (s.told l a).join b = (s.told l b).join a := by
  cases hid : s.typeWithLabel? l with
  | some id =>
    rw [told_of_some hid, told_of_some hid, TypeInfo.join, TypeInfo.join, TypeInfo.mk.injEq]
    exact ⟨rfl, orElse_left_comm hvalues⟩
  | none =>
    rw [told_of_none hid] at hab hba ⊢
    rw [told_of_none hid]
    have hsuper : a.superType = b.superType := eq_of_isSome_imp hab.superType hba.superType
    have hinherited := s.inherited_congr hsuper
    have hab := hab.valueType
    rw [hinherited] at hab
    rw [TypeInfo.join, TypeInfo.join, TypeInfo.mk.injEq, hinherited]
    exact ⟨hsuper, orElse_right_comm hab hba.valueType⟩

theorem Consent.symm (h : s.Consent l a b) : s.Consent l b a := by
  refine ⟨fun upper hupper => h.superTypes upper hupper.symm, h.valueTypes.symm,
    fun id hid => (h.known id hid).symm, fun hnew => ?_⟩
  obtain ⟨hsuper, hvalues⟩ := h.new hnew
  have hinherited := s.inherited_congr hsuper.symm
  rw [hinherited]
  exact ⟨hsuper.symm, hvalues.imp Eq.symm And.symm⟩

theorem Consent.accepts (h : s.Consent l a b) : s.Accepts l a :=
  ⟨fun upper hupper => h.superTypes upper (.inl hupper), fun id hid => (h.known id hid).1⟩

theorem Consent.told_admits (h : s.Consent l a b) : (s.told l a).Admits b := by
  cases hid : s.typeWithLabel? l with
  | some id =>
    obtain ⟨-, hb⟩ := h.known id hid
    rw [told_of_some hid]
    exact ⟨hb.superType, hb.valueType.orElse h.valueTypes⟩
  | none =>
    obtain ⟨hsuper, hvalues⟩ := h.new hid
    rw [told_of_none hid]
    exact ⟨fun _ => hsuper, (agree_orElse_iff.2 ⟨h.valueTypes, hvalues⟩).1⟩

theorem consent_of_admits (ha : s.Accepts l a) (hab : (s.told l a).Admits b) (hb : s.Accepts l b)
    (hba : (s.told l b).Admits a) : s.Consent l a b := by
  refine ⟨fun upper hupper => hupper.elim (ha.superType upper) (hb.superType upper),
    fun v hv => hab.valueType v (ha.knows.valueType v hv),
    fun id hid => ⟨ha.known id hid, hb.known id hid⟩, fun hnew => ?_⟩
  rw [told_of_none hnew] at hab hba
  have hsuper : a.superType = b.superType := eq_of_isSome_imp hab.superType hba.superType
  have hinherited := s.inherited_congr hsuper.symm
  have hba := hba.valueType
  rw [hinherited] at hba
  exact ⟨hsuper, (agree_orElse_iff.1 ⟨hab.valueType, hba⟩).2⟩

/-- Two calls that define one type may be interchanged exactly if they consent. -/
theorem definitions_commute_iff (h : s.Reachable) : s.Commute l a b ↔ s.Consent l a b := by
  constructor
  · rintro ⟨id, t, u, hab, hba, -⟩
    obtain ⟨ha, hab⟩ := accepts_of_defineTwice h hab
    obtain ⟨hb, hba⟩ := accepts_of_defineTwice h hba
    exact consent_of_admits ha hab hb hba
  · intro hconsent
    have hab := hconsent.told_admits
    have hba := hconsent.symm.told_admits
    obtain ⟨t, hrun, ht⟩ := exists_run_defineTwice h hconsent.accepts
      hconsent.symm.accepts.superType hab
    obtain ⟨u, hrun', hu⟩ := exists_run_defineTwice h hconsent.symm.accepts
      hconsent.accepts.superType hba
    rw [told_join_comm hab hba hconsent.valueTypes] at ht
    exact ⟨_, t, u, hrun, hrun', (ht.alike hu).looksLike⟩

/-- The supertype alone and the supertype with a datatype can be given in either order. -/
theorem definitions_commute_nickname :
    (after [.defineType ⟨"name"⟩ none none]).Commute ⟨"nickname"⟩ ⟨some ⟨0⟩, none⟩
      ⟨some ⟨0⟩, some .string⟩ := by
  refine (definitions_commute_iff (reachable_after _)).2 ⟨?_, nofun, nofun, fun _ => ⟨rfl, .inr ?_⟩⟩
  · rintro upper (h | h)
    all_goals
      cases h
      exact ⟨by decide, _, rfl, trivial⟩
  · exact ⟨nofun, nofun⟩

/-- A new type can be given its supertype and then a datatype. Once it has the datatype and no
supertype it is refused one, as if it had another. -/
theorem definitions_do_not_commute_person :
    let s := after [.defineType ⟨"entity"⟩ none none]
    let upper : TypeInfo := ⟨some ⟨0⟩, none⟩
    let datatype : TypeInfo := ⟨none, some .string⟩
    s.typeWithLabel? ⟨"person"⟩ = none ∧ s.label? ⟨0⟩ = some ⟨"entity"⟩ ∧ s.valueType? ⟨0⟩ = none ∧
      ((defineTwice ⟨"person"⟩ upper datatype).run.run s).1 = .ok (⟨1⟩, ⟨1⟩) ∧
      ((defineTwice ⟨"person"⟩ datatype upper).run.run s).1 = .error (.otherSuperType ⟨"person"⟩) ∧
      ¬s.Commute ⟨"person"⟩ upper datatype := by
  intro s upper datatype
  have hrefused : ((defineTwice ⟨"person"⟩ datatype upper).run.run s).1 =
      .error (.otherSuperType ⟨"person"⟩) := by rfl
  refine ⟨rfl, rfl, rfl, rfl, hrefused, ?_⟩
  rintro ⟨id, t, u, -, hrun, -⟩
  rw [hrun] at hrefused
  cases hrefused

end Store

end GraphQuery
