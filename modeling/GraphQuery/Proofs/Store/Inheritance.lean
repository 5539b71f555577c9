import GraphQuery.Proofs.Store.Definition
import GraphQuery.Proofs.Store.Permanence

/-!
# Inherited datatypes

A type takes over the datatype of its supertype when it is defined, and at no other time. So what
datatype it has is told by the call that made it, by the supertype at that time and by the first
later call that gave it one (`Origin.valueType?_eq`). Main statement: `after_inherits_iff`, which
says when a type has the datatype that its supertype has.
-/

namespace GraphQuery.Store

variable {s t : Store} {id : ConceptId} {l : Label} {more : TypeInfo}

/-- The concept is what it was before, or it is a new instance. -/
def SameOrInstance (s t : Store) (id : ConceptId) : Prop :=
  t.described? id = s.described? id ∨
    id = s.nextId ∧ ∃ type value, t.described? id = some (.member type value)

theorem Adds.sameOrInstance {type : ConceptId} {value : Option Value}
    (h : s.Adds t (.member type value)) (id : ConceptId) : s.SameOrInstance t id := by
  rw [SameOrInstance, h.described?]
  split
  · rename_i hid
    exact .inr ⟨hid, type, value, rfl⟩
  · exact .inl rfl

theorem Operation.sameOrInstance (h : s.Indexed) {op : Operation}
    (hop : ∀ l superType valueType, op ≠ .defineType l superType valueType) (id : ConceptId) :
    s.SameOrInstance (op.run s) id := by
  cases op with
  | defineType l superType valueType => exact absurd rfl (hop l superType valueType)
  | insertMember type =>
    refine snd_run_of_triple (R := (s.SameOrInstance · id)) (insertMember_spec s type) ?_ ?_
    · rintro - t ⟨-, rfl, -⟩
      exact (adds_withMember s type none).sameOrInstance id
    · rintro e t rfl
      exact .inl rfl
  | putAttribute type value =>
    refine snd_run_of_triple (R := (s.SameOrInstance · id)) (putAttribute_spec s type value) ?_ ?_
    · rintro - t ⟨-, -, ⟨-, rfl⟩ | ⟨-, -, rfl⟩⟩
      · exact .inl rfl
      · exact (adds_withAttribute s type value).sameOrInstance id
    · rintro e t rfl
      exact .inl rfl
  | addHas owner owned =>
    refine snd_run_of_triple (R := (s.SameOrInstance · id)) (addHas_spec s owner owned) ?_ ?_
    · rintro - t ⟨rfl, -⟩
      exact .inl rfl
    · rintro e t rfl
      exact .inl rfl
  | addRolePlayer relation role player =>
    have hmet := (alike_withRole h role).described? id
    refine snd_run_of_triple (R := (s.SameOrInstance · id))
      (addRolePlayer_spec s relation role player) ?_ ?_
    · rintro - t ⟨-, -, rfl⟩
      exact .inl ((described?_putRoleEdge ..).trans hmet.symm)
    · rintro e t (rfl | rfl)
      · exact .inl rfl
      · exact .inl hmet.symm

/-- The call succeeds in saying more of the type, which is made if it is not there. -/
def Operation.Tells (s : Store) (id : ConceptId) (l : Label) (more : TypeInfo) (op : Operation) :
    Prop :=
  op = .defineType l more.superType more.valueType ∧
    ((Store.defineType l more.superType more.valueType).run.run s).1 = .ok id

theorem differsAt_of_tells (h : s.Reachable) {op : Operation} (hop : op.Tells s id l more) :
    id = s.numberFor l ∧ s.DiffersAt (op.run s) id
      (.type l (s.told l more).superType (s.told l more).valueType) := by
  obtain ⟨rfl, hrun⟩ := hop
  have hrun : (defineType l more.superType more.valueType).run.run s =
      (.ok id, (Operation.defineType l more.superType more.valueType).run s) := Prod.ext hrun rfl
  exact (defineType_cases more h hrun).2

/-- A call that says nothing of a concept leaves it as it is, or makes it as an instance. -/
theorem sameOrInstance_of_not_tells (h : s.Reachable) {op : Operation}
    (hop : ∀ l more, ¬op.Tells s id l more) : s.SameOrInstance (op.run s) id := by
  cases op with
  | defineType l superType valueType =>
    rcases hrun : (defineType l superType valueType).run.run s with ⟨e | made, t⟩
    · have hspec := triple_iff_run.1 (defineType_spec s l superType valueType) s rfl
      rw [hrun] at hspec
      obtain rfl : t = (s.withLabel l).2 := hspec
      rw [Operation.run, hrun]
      exact .inl ((alike_withLabel h.indexed l).described? id).symm
    · obtain ⟨-, -, ht⟩ := defineType_cases ⟨superType, valueType⟩ h hrun
      have hid : id ≠ made := by
        rintro rfl
        exact hop l ⟨superType, valueType⟩ ⟨rfl, congrArg Prod.fst hrun⟩
      rw [Operation.run, hrun]
      exact .inl ((ht.described? id).trans (if_neg hid))
  | insertMember | putAttribute | addHas | addRolePlayer =>
    exact Operation.sameOrInstance h.indexed (by simp) id

/-- The datatype that a call gives to the type with a label, unless it is refused. -/
def Operation.given? (s : Store) (l : Label) : Operation → Option ValueType
  | defineType m superType valueType =>
    if m = l ∧ ((Store.defineType m superType valueType).run.run s).1.isOk then valueType else none
  | _ => none

/-- The first datatype that calls on a store give to the type with a label. -/
def firstGiven? (s : Store) (l : Label) : List Operation → Option ValueType
  | [] => none
  | op :: ops => op.given? s l <|> firstGiven? (op.run s) l ops

theorem given?_of_tells {op : Operation} (hop : op.Tells s id l more) :
    op.given? s l = more.valueType := by
  obtain ⟨rfl, hrun⟩ := hop
  simp [Operation.given?, hrun, Except.isOk, Except.toBool]

theorem given?_eq_none (h : s.Reachable) (hid : s.typeWithLabel? l = some id) {op : Operation}
    (hop : ∀ more, ¬op.Tells s id l more) : op.given? s l = none := by
  cases op with
  | defineType m superType valueType =>
    rw [Operation.given?, if_neg]
    rintro ⟨rfl, hok⟩
    rcases hrun : (defineType m superType valueType).run.run s with ⟨e | found, t⟩
    · rw [hrun] at hok
      cases hok
    · obtain ⟨-, rfl, -⟩ := defineType_cases ⟨superType, valueType⟩ h hrun
      rw [numberFor_of_some hid] at hrun
      exact hop ⟨superType, valueType⟩ ⟨rfl, congrArg Prod.fst hrun⟩
  | insertMember | putAttribute | addHas | addRolePlayer => rfl

theorem ne_nextId_of_label? (hl : s.label? id = some l) : id ≠ s.nextId := by
  rintro rfl
  exact lt_irrefl _ (lt_size_of_label? hl)

theorem label?_run (h : s.Reachable) (hl : s.label? id = some l) (op : Operation) :
    (op.run s).label? id = some l :=
  ((op.evolves s).label?_eq h (lt_size_of_label? hl)).trans hl

/-- A datatype is given to a type that has none, and only by a call that names its label. -/
theorem valueType?_run (h : s.Reachable) (hl : s.label? id = some l) (op : Operation) :
    (op.run s).valueType? id = (s.valueType? id <|> op.given? s l) := by
  have hid := (h.consistent.typeWithLabel l id).2 hl
  by_cases hop : ∃ m more, op.Tells s id m more
  · obtain ⟨m, more, hop⟩ := hop
    obtain ⟨-, ht⟩ := differsAt_of_tells h hop
    obtain rfl : m = l := by
      have hm := (label?_eq_bind (op.run s) id).symm.trans (label?_run h hl op)
      rw [ht.described?_self] at hm
      exact Option.some.inj hm
    rw [told_of_some hid] at ht
    rw [given?_of_tells hop]
    exact congrArg TypeInfo.valueType ht.typeInfo_self
  · simp only [not_exists] at hop
    rw [given?_eq_none h hid (hop l)]
    refine Eq.trans ?_ (orElse_failure (s.valueType? id)).symm
    obtain hsame | ⟨hnext, -⟩ := sameOrInstance_of_not_tells h hop
    · rw [valueType?_eq_bind, valueType?_eq_bind, hsame]
    · exact absurd hnext (ne_nextId_of_label? hl)

theorem valueType?_runAll (h : s.Reachable) (hl : s.label? id = some l) (ops : List Operation) :
    (s.runAll ops).valueType? id = (s.valueType? id <|> s.firstGiven? l ops) := by
  induction ops generalizing s with
  | nil => exact (orElse_failure _).symm
  | cons op ops ih =>
    have hrest := ih (h.trans (op.evolves s)) (label?_run h hl op)
    rw [valueType?_run h hl] at hrest
    exact hrest.trans (orElse_assoc ..).symm

/-- The call that has made a type, with the calls before and after it. -/
structure Origin (ops : List Operation) (id : ConceptId) where
  before : List Operation
  label : Label
  superType : Option ConceptId
  /-- The datatype that the call gave. -/
  own : Option ValueType
  later : List Operation
  split : ops = before ++ .defineType label superType own :: later
  new : (after before).typeWithLabel? label = none
  run : ((defineType label superType own).run.run (after before)).1 = .ok id

/-- A type that is there after a call was there before, or it is new and the call has made it. -/
theorem label?_run_cases (h : s.Reachable) {op : Operation} (hl : (op.run s).label? id = some l) :
    s.label? id = some l ∨ s.typeWithLabel? l = none ∧ ∃ more, op.Tells s id l more := by
  by_cases hop : ∃ m more, op.Tells s id m more
  · obtain ⟨m, more, hop⟩ := hop
    obtain ⟨hnumber, ht⟩ := differsAt_of_tells h hop
    obtain rfl : m = l := by
      rw [label?_eq_bind, ht.described?_self] at hl
      exact Option.some.inj hl
    cases hknown : s.typeWithLabel? m with
    | none => exact .inr ⟨rfl, more, hop⟩
    | some known =>
      obtain rfl : id = known := hnumber.trans (numberFor_of_some hknown)
      exact .inl ((h.consistent.typeWithLabel m id).1 hknown)
  · simp only [not_exists] at hop
    rw [label?_eq_bind] at hl
    obtain hsame | ⟨-, type, value, hmember⟩ := sameOrInstance_of_not_tells h hop
    · rw [hsame, ← label?_eq_bind] at hl
      exact .inl hl
    · rw [hmember] at hl
      cases hl

theorem after_append (ops later : List Operation) :
    after (ops ++ later) = (after ops).runAll later :=
  List.foldl_append

/-- Every type has been made by one of the calls. -/
theorem exists_origin {ops : List Operation} (hl : (after ops).label? id = some l) :
    Nonempty (Origin ops id) := by
  induction ops using List.reverseRecOn with
  | nil => cases hl
  | append_singleton ops op ih =>
    rw [after_append] at hl
    obtain hl | ⟨hnew, more, rfl, hrun⟩ := label?_run_cases (reachable_after ops) hl
    · obtain ⟨o⟩ := ih hl
      exact ⟨{ o with later := o.later ++ [op], split := by simp [o.split] }⟩
    · exact ⟨⟨ops, l, more.superType, more.valueType, [], rfl, hnew, hrun⟩⟩

namespace Origin

variable {ops : List Operation}

/-- The store when the type has just been made. -/
def made (o : Origin ops id) : Store :=
  (Operation.defineType o.label o.superType o.own).run (after o.before)

theorem after_eq (o : Origin ops id) : after ops = o.made.runAll o.later := by
  have hsplit := congrArg after o.split
  rwa [after_append] at hsplit

theorem reachable_made (o : Origin ops id) : o.made.Reachable :=
  (reachable_after o.before).trans (Operation.evolves _ _)

theorem differsAt (o : Origin ops id) : (after o.before).DiffersAt o.made id
    (.type o.label o.superType
      (o.own <|> o.superType.bind (after o.before).valueType?)) := by
  have htells : (Operation.defineType o.label o.superType o.own).Tells (after o.before) id o.label
      ⟨o.superType, o.own⟩ := ⟨rfl, o.run⟩
  obtain ⟨-, ht⟩ := differsAt_of_tells (reachable_after o.before) htells
  rwa [told_of_none o.new] at ht

theorem evolves (o : Origin ops id) : (after o.before).Evolves (after ops) := by
  rw [o.after_eq]
  exact (Operation.evolves _ _).trans (evolves_runAll o.made o.later)

theorem label?_made (o : Origin ops id) : o.made.label? id = some o.label := by
  rw [label?_eq_bind, o.differsAt.described?_self]
  rfl

/-- The supertype of a type is the one that it was given when it was made. -/
theorem superType?_eq (o : Origin ops id) : (after ops).superType? id = o.superType := by
  have hmade : o.made.superType? id = o.superType :=
    congrArg TypeInfo.superType o.differsAt.typeInfo_self
  rw [o.after_eq, (evolves_runAll o.made o.later).superType?_eq (lt_size_of_label? o.label?_made),
    hmade]

/-- A type has the datatype that it was given when it was made, else the one that its supertype had
then, else the first one that it was given later. -/
theorem valueType?_eq (o : Origin ops id) : (after ops).valueType? id =
    (o.own <|> o.superType.bind (after o.before).valueType? <|>
      o.made.firstGiven? o.label o.later) := by
  have hmade : o.made.valueType? id =
      (o.own <|> o.superType.bind (after o.before).valueType?) :=
    congrArg TypeInfo.valueType o.differsAt.typeInfo_self
  rw [o.after_eq, valueType?_runAll o.reachable_made o.label?_made, hmade]
  exact (orElse_assoc ..).symm

end Origin

/-- A type has the datatype that its supertype has exactly if it was given it when it was made, or
was given none but took it over then or was given it later. -/
theorem after_inherits_iff {ops : List Operation} {type upper : ConceptId} {v : ValueType}
    (hupper : (after ops).superType? type = some upper)
    (hvalue : (after ops).valueType? upper = some v) :
    Nonempty (Origin ops type) ∧ ∀ o : Origin ops type, o.superType = some upper ∧
      ((after ops).valueType? type = some v ↔ o.own = some v ∨ o.own = none ∧
        (((after o.before).valueType? upper).isSome ∨
          o.made.firstGiven? o.label o.later = some v)) := by
  have hreachable := reachable_after ops
  obtain ⟨label, houtline⟩ := superType?_eq_some_iff.1 hupper
  obtain ⟨valueType, htype⟩ := isType_iff.2 ⟨_, houtline⟩
  obtain ⟨l, hl⟩ := hreachable.consistent.typeLabel type label valueType htype
  refine ⟨exists_origin hl, fun o => ?_⟩
  have hsuper : o.superType = some upper := o.superType?_eq.symm.trans hupper
  refine ⟨hsuper, ?_⟩
  rw [o.valueType?_eq, hsuper, Option.bind_some]
  cases o.own with
  | some own => simp
  | none =>
    cases hthen : (after o.before).valueType? upper with
    | none => simp
    | some w =>
      -- The supertype has not lost the datatype that it had.
      have hkept : some w = some v := (o.evolves.valueType?_eq hthen).symm.trans hvalue
      simp [hkept]

/-- A nickname takes over the datatype that names have when it is defined. -/
theorem after_inherits_nickname :
    let ops : List Operation := [.defineType ⟨"name"⟩ none (some .string),
      .defineType ⟨"nickname"⟩ (some ⟨0⟩) none]
    (after ops).superType? ⟨1⟩ = some ⟨0⟩ ∧ (after ops).valueType? ⟨0⟩ = some .string ∧
      (after ops).valueType? ⟨1⟩ = some .string := by
  intro ops
  have hupper : (after ops).superType? ⟨1⟩ = some ⟨0⟩ := rfl
  have hvalue : (after ops).valueType? ⟨0⟩ = some .string := rfl
  let o : Origin ops ⟨1⟩ := ⟨[.defineType ⟨"name"⟩ none (some .string)], ⟨"nickname"⟩, some ⟨0⟩,
    none, [], rfl, rfl, rfl⟩
  obtain ⟨-, hinherits⟩ := (after_inherits_iff hupper hvalue).2 o
  exact ⟨hupper, hvalue, hinherits.2 (.inr ⟨rfl, .inl rfl⟩)⟩

/-- A nickname can be given another datatype than the one that names have, and it has none if names
get theirs only later. -/
theorem after_does_not_inherit_nickname :
    let s := after [.defineType ⟨"name"⟩ none (some .string),
      .defineType ⟨"nickname"⟩ (some ⟨0⟩) (some .long)]
    let t := after [.defineType ⟨"name"⟩ none none, .defineType ⟨"nickname"⟩ (some ⟨0⟩) none,
      .defineType ⟨"name"⟩ none (some .string)]
    (s.superType? ⟨1⟩ = some ⟨0⟩ ∧ s.valueType? ⟨0⟩ = some .string ∧
      s.valueType? ⟨1⟩ = some .long) ∧
    t.superType? ⟨1⟩ = some ⟨0⟩ ∧ t.valueType? ⟨0⟩ = some .string ∧ t.valueType? ⟨1⟩ = none :=
  ⟨⟨rfl, rfl, rfl⟩, rfl, rfl, rfl⟩

end GraphQuery.Store
