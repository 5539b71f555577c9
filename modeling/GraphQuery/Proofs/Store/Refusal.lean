import GraphQuery.Proofs.Store.Observation

/-!
# What refused calls leave behind

Calls on stores that are alike come to the same result, even to the same reason for a refusal, and
leave stores that are alike again. A refused call leaves a store that is alike to the one before, so
that no later call can tell that there has been one (`Call.refused_unnoticed`).
-/

namespace GraphQuery

open Std.Do

namespace Store

/-- What two computations come to: results and stores that fit, or the same refusal with stores that
are alike. -/
inductive Mirrored {α β : Type} (Q : α → β → Store → Store → Prop) :
    Except StoreError α × Store → Except StoreError β × Store → Prop
  | ok {a : α} {b : β} {s t : Store} (h : Q a b s t) : Mirrored Q (.ok a, s) (.ok b, t)
  | error (e : StoreError) {s t : Store} (h : s.Alike t) : Mirrored Q (.error e, s) (.error e, t)

/-- That computations, one from each of two stores, come to results that fit or are refused alike. -/
def Mirrors {α β : Type} (s t : Store) (m : StoreM α) (n : StoreM β)
    (Q : α → β → Store → Store → Prop) : Prop :=
  Mirrored Q (m.run.run s) (n.run.run t)

section Rules

variable {α β γ δ : Type} {s t : Store} {m : StoreM α} {n : StoreM β}
  {Q : α → β → Store → Store → Prop} {R : γ → δ → Store → Store → Prop}

theorem run_bind (m : StoreM α) (f : α → StoreM γ) (s : Store) : (m >>= f).run.run s =
    match m.run.run s with
    | (.ok a, s') => (f a).run.run s'
    | (.error e, s') => (.error e, s') := by
  rw [ExceptT.run_bind, StateT.run_bind]
  rcases m.run.run s with ⟨e | a, s'⟩ <;> rfl

/-- Both parts of a computation that succeeds have succeeded. -/
theorem ok_of_bind {f : α → StoreM γ} {c : γ} {t : Store}
    (hrun : (m >>= f).run.run s = (.ok c, t)) :
    ∃ a u, m.run.run s = (.ok a, u) ∧ (f a).run.run u = (.ok c, t) := by
  rw [run_bind] at hrun
  rcases hm : m.run.run s with ⟨e | a, u⟩
  · rw [hm] at hrun
    cases hrun
  · rw [hm] at hrun
    exact ⟨a, u, rfl, hrun⟩

theorem run_bind_of_ok {a : α} {t : Store} (hm : m.run.run s = (.ok a, t)) (f : α → StoreM γ) :
    (m >>= f).run.run s = (f a).run.run t := by
  rw [run_bind, hm]

theorem run_map (f : α → γ) (m : StoreM α) (s : Store) :
    (f <$> m).run.run s = ((m.run.run s).1.map f, (m.run.run s).2) := by
  rw [← bind_pure_comp, run_bind]
  rcases m.run.run s with ⟨e | a, s'⟩ <;> rfl

theorem Mirrors.bind {f : α → StoreM γ} {g : β → StoreM δ} (h : Mirrors s t m n Q)
    (hfg : ∀ a b s' t', Q a b s' t' → Mirrors s' t' (f a) (g b) R) :
    Mirrors s t (m >>= f) (n >>= g) R := by
  rw [Mirrors] at h
  rw [Mirrors, run_bind, run_bind]
  generalize m.run.run s = x, n.run.run t = y at h
  cases h with
  | ok h => exact hfg _ _ _ _ h
  | error e h => exact .error e h

theorem Mirrors.of_pure {a : α} {b : β} (h : Q a b s t) :
    Mirrors s t (pure a : StoreM α) (pure b : StoreM β) Q := .ok h

theorem Mirrors.of_throw (h : s.Alike t) (e : StoreError) :
    Mirrors s t (throw e : StoreM α) (throw e : StoreM β) Q := .error e h

theorem Mirrors.of_throw_bind {f : α → StoreM γ} {g : β → StoreM δ} (h : s.Alike t) (e : StoreError) :
    Mirrors s t (throw e >>= f) (throw e >>= g) R := .error e h

theorem Mirrors.of_get_bind {f : Store → StoreM γ} {g : Store → StoreM δ}
    (h : Mirrors s t (f s) (g t) R) : Mirrors s t (get >>= f) (get >>= g) R := h

theorem Mirrors.of_modifyGet {f : Store → α × Store} {g : Store → β × Store}
    (h : Q (f s).1 (g t).1 (f s).2 (g t).2) :
    Mirrors s t (modifyGet f : StoreM α) (modifyGet g : StoreM β) Q := .ok h

end Rules

variable {s t : Store}

theorem checkRange_mirrors (h : s.Alike t) (id : ConceptId) :
    Mirrors s t (checkRange id) (checkRange id) fun _ _ s' t' => s' = s ∧ t' = t := by
  rw [checkRange]
  split
  · exact .of_pure ⟨rfl, rfl⟩
  · exact .of_throw h _

theorem readType_mirrors (h : s.Alike t) (id : ConceptId) :
    Mirrors s t (readType id) (readType id) fun a b s' t' => s' = s ∧ t' = t ∧
      a.2 = b.2 ∧ s.labels.label? a.1 = t.labels.label? b.1 ∧
      s.IsType id a.1 a.2 ∧ t.IsType id b.1 b.2 := by
  refine .of_get_bind ?_
  rcases h.concept?_cases id with ⟨hs, ht⟩ | ⟨_, _, _, _, hs, ht, hl⟩ | ⟨_, _, hs, ht⟩
  · rw [hs, ht]
    exact .of_throw h _
  · rw [hs, ht]
    exact .of_pure ⟨rfl, rfl, rfl, hl, ⟨_, hs⟩, ⟨_, ht⟩⟩
  · rw [hs, ht]
    exact .of_throw h _

theorem checkMember_mirrors (h : s.Alike t) (id : ConceptId) :
    Mirrors s t (checkMember id) (checkMember id) fun _ _ s' t' => s' = s ∧ t' = t ∧
      s.IsMember id ∧ t.IsMember id := by
  refine .of_get_bind ?_
  rcases h.concept?_cases id with ⟨hs, ht⟩ | ⟨_, _, _, _, hs, ht, -⟩ | ⟨_, _, hs, ht⟩
  · rw [hs, ht]
    exact .of_throw h _
  · rw [hs, ht]
    exact .of_throw h _
  · rw [hs, ht]
    exact .of_pure ⟨rfl, rfl, ⟨_, _, hs⟩, ⟨_, _, ht⟩⟩

theorem contains_mirrors (h : s.Alike t) (id : ConceptId) :
    Mirrors s t (contains id) (contains id) fun a b s' t' => a = b ∧ s'.Alike t' := by
  rw [Mirrors, run_contains, run_contains, h.described?]
  split
  · exact .ok ⟨rfl, h⟩
  · exact .error _ h

theorem insertMember_mirrors (h : s.Alike t) (type : ConceptId) :
    Mirrors s t (insertMember type) (insertMember type) fun a b s' t' => a = b ∧ s'.Alike t' := by
  refine (checkRange_mirrors h type).bind ?_
  rintro _ _ s t ⟨rfl, rfl⟩
  refine (readType_mirrors h type).bind ?_
  rintro ⟨label, valueType⟩ ⟨label', _⟩ s t ⟨rfl, rfl, rfl, -, hs, ht⟩
  dsimp only
  split
  · exact .of_throw h _
  · rename_i hvalue
    obtain rfl := Option.not_isSome_iff_eq_none.1 hvalue
    refine .of_modifyGet ⟨h.nextId, ?_⟩
    exact h.adds (adds_withMember s type none) (adds_withMember t type none) (.addMember hs)
      (.addMember ht) rfl

/-- An attribute with the value is found, or made. -/
theorem findAttribute_mirrors (h : s.Alike t) {type : ConceptId} {value : Value}
    {label label' : LabelId} {valueType : Option ValueType} (hs : s.IsType type label valueType)
    (ht : t.IsType type label' valueType)
    (hvalue : ∀ expected, valueType = some expected → expected = value.type) :
    Mirrors s t
      (do match (← get).attributesByValue.lookup (type, value) with
        | some id => return id
        | none => modifyGet fun s => (s.nextId, s.withAttribute type value))
      (do match (← get).attributesByValue.lookup (type, value) with
        | some id => return id
        | none => modifyGet fun s => (s.nextId, s.withAttribute type value))
      fun a b s' t' => a = b ∧ s'.Alike t' := by
  refine .of_get_bind ?_
  have hlookup := h.lookup_attributesByValue type value
  cases hnew : t.attributesByValue.lookup (type, value) with
  | some id =>
    rw [hlookup, hnew]
    exact .of_pure ⟨rfl, h⟩
  | none =>
    rw [hlookup, hnew]
    refine .of_modifyGet ⟨h.nextId, ?_⟩
    exact h.adds (adds_withAttribute s type value) (adds_withAttribute t type value)
      (.addAttribute hs hvalue (hlookup.trans hnew)) (.addAttribute ht hvalue hnew) rfl

theorem putAttribute_mirrors (h : s.Alike t) (type : ConceptId) (value : Value) :
    Mirrors s t (putAttribute type value) (putAttribute type value)
      fun a b s' t' => a = b ∧ s'.Alike t' := by
  refine (checkRange_mirrors h type).bind ?_
  rintro _ _ s t ⟨rfl, rfl⟩
  refine (readType_mirrors h type).bind ?_
  rintro ⟨label, valueType⟩ ⟨label', _⟩ s t ⟨rfl, rfl, rfl, hl, hs, ht⟩
  dsimp only at hl hs ht ⊢
  cases valueType with
  | none => exact findAttribute_mirrors h hs ht nofun
  | some expected =>
    refine .of_get_bind ?_
    by_cases hexpected : expected = value.type
    · simp only [if_neg (not_not.2 hexpected)]
      exact findAttribute_mirrors h hs ht (by simp [hexpected])
    · rw [hl]
      simp only [if_pos hexpected]
      exact .of_throw_bind h _

theorem addHas_mirrors (h : s.Alike t) (owner owned : ConceptId) :
    Mirrors s t (addHas owner owned) (addHas owner owned)
      fun _ _ s' t' => s'.Alike t' := by
  refine (checkRange_mirrors h owner).bind ?_
  rintro _ _ s t ⟨rfl, rfl⟩
  refine (checkRange_mirrors h owned).bind ?_
  rintro _ _ s t ⟨rfl, rfl⟩
  refine (checkMember_mirrors h owner).bind ?_
  rintro _ _ s t ⟨rfl, rfl, hsowner, htowner⟩
  refine (checkMember_mirrors h owned).bind ?_
  rintro _ _ s t ⟨rfl, rfl, hsowned, htowned⟩
  exact .of_modifyGet (h.withHas (.addHas hsowner hsowned) (.addHas htowner htowned))

theorem withRole_mirrors (s t : Store) (role : Option Label) :
    Mirrors s t (role.mapM fun l => modifyGet (·.withLabel l))
      (role.mapM fun l => modifyGet (·.withLabel l)) fun a b s' t' =>
        a = (s.withRole role).1 ∧ s' = (s.withRole role).2 ∧
          b = (t.withRole role).1 ∧ t' = (t.withRole role).2 := by
  cases role with
  | none => exact .of_pure ⟨rfl, rfl, rfl, rfl⟩
  | some l => exact .ok ⟨rfl, rfl, rfl, rfl⟩

theorem addRolePlayer_mirrors (h : s.Alike t) (relation : ConceptId) (role : Option Label)
    (player : ConceptId) :
    Mirrors s t (addRolePlayer relation role player) (addRolePlayer relation role player)
      fun _ _ s' t' => s'.Alike t' := by
  refine (checkRange_mirrors h relation).bind ?_
  rintro _ _ s t ⟨rfl, rfl⟩
  refine (checkRange_mirrors h player).bind ?_
  rintro _ _ s t ⟨rfl, rfl⟩
  refine (withRole_mirrors s t role).bind ?_
  rintro _ _ _ _ ⟨rfl, rfl, rfl, rfl⟩
  refine (checkMember_mirrors (h.withRole role) relation).bind ?_
  rintro _ _ _ _ ⟨rfl, rfl, hsrelation, htrelation⟩
  refine (checkMember_mirrors (h.withRole role) player).bind ?_
  rintro _ _ _ _ ⟨rfl, rfl, hsplayer, htplayer⟩
  exact .of_modifyGet ((h.withRole role).putRoleEdge (label?_withRole s role)
    (label?_withRole t role) ⟨hsrelation, hsplayer⟩ ⟨htrelation, htplayer⟩)

theorem extendType_mirrors (h : s.Alike t) {l : Label} {label label' : LabelId} {id : ConceptId}
    (hs : s.labels.idOf? l = some label) (ht : t.labels.idOf? l = some label')
    (hid : t.typesByLabel.get? label' = some id) (superType : Option ConceptId)
    (valueType : Option ValueType) :
    Mirrors s t (extendType l id superType valueType) (extendType l id superType valueType)
      fun _ _ s' t' => s'.Alike t' := by
  refine .of_get_bind ?_
  rw [h.superType?, h.valueType?]
  dsimp only
  split
  · exact .of_throw_bind h _
  · rename_i hsuper
    split
    · exact .of_throw_bind h _
    · rename_i hvalue
      have hsid := (h.get?_typesByLabel hs ht).trans hid
      refine .ok (h.withTypeInfo (.extendType hs hsid ?_ ?_) (.extendType ht hid ?_ ?_))
      · rw [h.superType?]
        grind
      · rw [h.valueType?]
        grind
      · grind
      · grind

/-- Once a label has a number, the type that has the label is found, or made. -/
theorem findType_mirrors (h : s.Alike t) {l : Label} {label label' : LabelId}
    (hs : s.labels.idOf? l = some label) (ht : t.labels.idOf? l = some label')
    {superType : Option ConceptId} {inherited : Option ValueType}
    (hssuper : ∀ upper ∈ superType, ∃ upperLabel upperValue, s.IsType upper upperLabel upperValue)
    (htsuper : ∀ upper ∈ superType, ∃ upperLabel upperValue, t.IsType upper upperLabel upperValue)
    (hinherited : inherited = superType.bind t.valueType?) (valueType : Option ValueType) :
    Mirrors s t
      (do match (← get).typesByLabel.get? label with
        | some id =>
          extendType l id superType valueType
          return id
        | none => modifyGet fun s =>
          (s.nextId, s.withType label superType (valueType <|> inherited)))
      (do match (← get).typesByLabel.get? label' with
        | some id =>
          extendType l id superType valueType
          return id
        | none => modifyGet fun s =>
          (s.nextId, s.withType label' superType (valueType <|> inherited)))
      fun a b s' t' => a = b ∧ s'.Alike t' := by
  refine .of_get_bind ?_
  have hget := h.get?_typesByLabel hs ht
  cases hid : t.typesByLabel.get? label' with
  | some id =>
    rw [hget, hid]
    refine (extendType_mirrors h hs ht hid superType valueType).bind ?_
    exact fun _ _ s' t' h' => .of_pure ⟨rfl, h'⟩
  | none =>
    rw [hget, hid]
    have hsgrows : s.Grows (s.withType label superType (valueType <|> inherited)) := by
      rw [hinherited, ← funext h.valueType?]
      exact .addType hs (hget.trans hid) hssuper
    have htgrows : t.Grows (t.withType label' superType (valueType <|> inherited)) := by
      rw [hinherited]
      exact .addType ht hid htsuper
    refine .of_modifyGet ⟨h.nextId, ?_⟩
    refine h.adds (adds_withType s label superType _) (adds_withType t label' superType _) hsgrows
      htgrows ?_
    rw [describe, describe, LabelTable.label?_eq_some_iff.2 hs, LabelTable.label?_eq_some_iff.2 ht]

theorem defineType_mirrors (h : s.Alike t) (l : Label) (superType : Option ConceptId)
    (valueType : Option ValueType) :
    Mirrors s t (defineType l superType valueType) (defineType l superType valueType)
      fun a b s' t' => a = b ∧ s'.Alike t' := by
  have hmet : Mirrors s t (modifyGet (·.withLabel l)) (modifyGet (·.withLabel l))
      fun a b s' t' => s'.Alike t' ∧ s'.labels.idOf? l = some a ∧ t'.labels.idOf? l = some b :=
    .of_modifyGet ⟨h.withLabel l, idOf?_withLabel s l, idOf?_withLabel t l⟩
  refine hmet.bind ?_
  rintro label label' s t ⟨h, hs, ht⟩
  have hrange : Mirrors s t (superType.forM checkRange) (superType.forM checkRange)
      fun _ _ s' t' => s' = s ∧ t' = t := by
    cases superType with
    | none => exact .of_pure ⟨rfl, rfl⟩
    | some upper => exact checkRange_mirrors h upper
  refine hrange.bind ?_
  rintro _ _ s t ⟨rfl, rfl⟩
  cases superType with
  | none => exact findType_mirrors h hs ht (by simp) (by simp) rfl valueType
  | some upper =>
    refine (readType_mirrors h upper).bind ?_
    rintro ⟨upperLabel, inherited⟩ ⟨upperLabel', _⟩ s t ⟨rfl, rfl, rfl, -, hsupper, htupper⟩
    refine findType_mirrors h hs ht ?_ ?_ htupper.valueType?_eq.symm valueType
    · simpa using ⟨_, _, hsupper⟩
    · simpa using ⟨_, _, htupper⟩

/-- What a call answers. -/
inductive Reply where
  | done
  | concept (id : ConceptId)
  | found (found : Bool)

/-- A call of an operation that may be refused. -/
inductive Call where
  | write (op : Operation)
  | contains (id : ConceptId)

def Operation.exec : Operation → StoreM Reply
  | defineType l superType valueType => .concept <$> Store.defineType l superType valueType
  | insertMember type => .concept <$> Store.insertMember type
  | putAttribute type value => .concept <$> Store.putAttribute type value
  | addHas owner owned => (fun _ => .done) <$> Store.addHas owner owned
  | addRolePlayer relation role player =>
    (fun _ => .done) <$> Store.addRolePlayer relation role player

def Call.exec : Call → StoreM Reply
  | write op => op.exec
  | contains id => .found <$> Store.contains id

/-- What calls that follow each other answer, refused ones included. -/
def answers (s : Store) : List Call → List (Except StoreError Reply)
  | [] => []
  | c :: cs => (c.exec.run.run s).1 :: answers (c.exec.run.run s).2 cs

/-- The store that calls leave, refused ones included. -/
def afterCalls (s : Store) (calls : List Call) : Store :=
  calls.foldl (fun s c => (c.exec.run.run s).2) s

/-- But for the reply, a call does what the operation does. -/
theorem Operation.snd_run_exec (s : Store) (op : Operation) :
    (op.exec.run.run s).2 = op.run s := by
  cases op <;> rw [exec, run_map, run]

theorem Call.evolves (s : Store) (c : Call) : s.Evolves (c.exec.run.run s).2 := by
  cases c with
  | write op =>
    rw [exec, op.snd_run_exec]
    exact op.evolves s
  | contains id =>
    rw [exec, run_map, run_contains]
    exact .refl s

theorem evolves_afterCalls (s : Store) (calls : List Call) : s.Evolves (s.afterCalls calls) := by
  induction calls generalizing s with
  | nil => exact .refl s
  | cons c cs ih => exact (c.evolves s).trans (ih (c.exec.run.run s).2)

theorem Mirrors.map {α β γ δ : Type} {m : StoreM α} {n : StoreM β} {f : α → γ} {g : β → δ}
    {Q : α → β → Store → Store → Prop} {R : γ → δ → Store → Store → Prop} (h : Mirrors s t m n Q)
    (hfg : ∀ a b s' t', Q a b s' t' → R (f a) (g b) s' t') :
    Mirrors s t (f <$> m) (g <$> n) R := by
  rw [← bind_pure_comp, ← bind_pure_comp]
  exact h.bind fun a b s' t' hab => .of_pure (hfg a b s' t' hab)

theorem Call.exec_mirrors (h : s.Alike t) (c : Call) :
    Mirrors s t c.exec c.exec fun a b s' t' => a = b ∧ s'.Alike t' := by
  cases c with
  | write op =>
    cases op with
    | defineType l superType valueType =>
      exact (defineType_mirrors h l superType valueType).map fun _ _ _ _ => .imp_left (congrArg _)
    | insertMember type =>
      exact (insertMember_mirrors h type).map fun _ _ _ _ => .imp_left (congrArg _)
    | putAttribute type value =>
      exact (putAttribute_mirrors h type value).map fun _ _ _ _ => .imp_left (congrArg _)
    | addHas owner owned => exact (addHas_mirrors h owner owned).map fun _ _ _ _ h => ⟨rfl, h⟩
    | addRolePlayer relation role player =>
      exact (addRolePlayer_mirrors h relation role player).map fun _ _ _ _ h => ⟨rfl, h⟩
  | contains id => exact (contains_mirrors h id).map fun _ _ _ _ => .imp_left (congrArg _)

/-- A call answers alike stores the same and leaves them alike. -/
theorem Call.run_exec (h : s.Alike t) (c : Call) :
    (c.exec.run.run s).1 = (c.exec.run.run t).1 ∧
      (c.exec.run.run s).2.Alike (c.exec.run.run t).2 := by
  have hmirrors := c.exec_mirrors h
  rw [Mirrors] at hmirrors
  generalize c.exec.run.run s = x, c.exec.run.run t = y at hmirrors ⊢
  cases hmirrors with
  | ok h => exact ⟨congrArg Except.ok h.1, h.2⟩
  | error e h => exact ⟨rfl, h⟩

/-- No calls tell alike stores apart. -/
theorem Alike.answers_eq (h : s.Alike t) (calls : List Call) :
    s.answers calls = t.answers calls ∧ (s.afterCalls calls).Alike (t.afterCalls calls) := by
  induction calls generalizing s t with
  | nil => exact ⟨rfl, h⟩
  | cons c cs ih =>
    obtain ⟨hreply, hafter⟩ := c.run_exec h
    obtain ⟨hanswers, hstores⟩ := ih hafter
    exact ⟨by rw [answers, answers, hreply, hanswers], hstores⟩

theorem alike_withRole (h : s.Indexed) (role : Option Label) : s.Alike (s.withRole role).2 := by
  cases role with
  | none => exact .refl h
  | some l => exact alike_withLabel h l

/-- What the triple of an operation says of a call that is refused. -/
theorem error_of_spec {α : Type} {m : StoreM α} {f : α → Reply} {Q : α → Store → Prop}
    {E : StoreError → Store → Prop} {e : StoreError}
    (h : ⦃fun u => ⌜u = s⌝⦄ m ⦃post⟨fun a u => ⌜Q a u⌝, fun e u => ⌜E e u⌝⟩⦄)
    (hrun : (f <$> m).run.run s = (.error e, t)) : E e t := by
  have hspec := triple_iff_run.1 h s rfl
  rw [run_map] at hrun
  rcases hm : m.run.run s with ⟨_ | a, u⟩
  · rw [hm] at hrun hspec
    cases hrun
    exact hspec
  · rw [hm] at hrun
    cases hrun

/-- A refused call has at most met a label. -/
theorem Call.alike_of_refused (h : s.Indexed) {c : Call} {e : StoreError}
    (hrun : c.exec.run.run s = (.error e, t)) : s.Alike t := by
  cases c with
  | write op =>
    cases op with
    | defineType l superType valueType =>
      obtain rfl : t = (s.withLabel l).2 :=
        error_of_spec (defineType_spec s l superType valueType) hrun
      exact alike_withLabel h l
    | insertMember type =>
      obtain rfl : t = s := error_of_spec (insertMember_spec s type) hrun
      exact .refl h
    | putAttribute type value =>
      obtain rfl : t = s := error_of_spec (putAttribute_spec s type value) hrun
      exact .refl h
    | addHas owner owned =>
      obtain rfl : t = s := error_of_spec (addHas_spec s owner owned) hrun
      exact .refl h
    | addRolePlayer relation role player =>
      obtain rfl | rfl : t = s ∨ t = (s.withRole role).2 :=
        error_of_spec (addRolePlayer_spec s relation role player) hrun
      · exact .refl h
      · exact alike_withRole h role
  | contains id =>
    obtain rfl : t = s := error_of_spec (contains_spec s id) hrun
    exact .refl h

/-- After a call that is refused, whatever is read is as it was before, and whatever calls follow
answer as if it had not been made and leave a store of which the same is read. -/
theorem Call.refused_unnoticed {c : Call} {e : StoreError} (h : s.Reachable)
    (hrun : c.exec.run.run s = (.error e, t)) :
    s.LooksLike t ∧ ∀ calls, s.answers calls = t.answers calls ∧
      (s.afterCalls calls).LooksLike (t.afterCalls calls) := by
  have halike := c.alike_of_refused h.indexed hrun
  refine ⟨halike.looksLike, fun calls => ?_⟩
  obtain ⟨hanswers, hafter⟩ := halike.answers_eq calls
  exact ⟨hanswers, hafter.looksLike⟩

/-- A type is refused as a player, but the label of the role has been met. -/
theorem Call.refused_unnoticed_type :
    let s := after [.defineType ⟨"person"⟩ none none]
    let c : Call := .write (.addRolePlayer ⟨0⟩ (some ⟨"friend"⟩) ⟨0⟩)
    ∃ t, c.exec.run.run s = (.error (.notInstance ⟨0⟩), t) ∧
      s.labels.size = 1 ∧ t.labels.size = 2 ∧ s.LooksLike t ∧
      ∀ calls, s.answers calls = t.answers calls ∧
        (s.afterCalls calls).LooksLike (t.afterCalls calls) := by
  intro s c
  have hreply : (c.exec.run.run s).1 = .error (.notInstance ⟨0⟩) := by rfl
  have hrun : c.exec.run.run s = (.error (.notInstance ⟨0⟩), (c.exec.run.run s).2) :=
    Prod.ext hreply rfl
  exact ⟨_, hrun, rfl, rfl, refused_unnoticed (reachable_after _) hrun⟩

end Store

end GraphQuery
