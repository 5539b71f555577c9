import GraphQuery.Statement.Shape

/-!
# Equality up to unnamed slots is an equivalence

Statements carry statements, so the laws of `==` are proved for properties by induction on what they
carry (`Property.induction`). Players are compared by their shapes, whence the players of two
relations form one multiset exactly when their shapes do.
-/

namespace GraphQuery

theorem Variable.alike_refl (a : Variable) : a.alike a = true := Variable.alike_iff.2 rfl

theorem Variable.alike_symm {a b : Variable} (h : a.alike b = true) : b.alike a = true :=
  Variable.alike_iff.2 (Variable.alike_iff.1 h).symm

theorem Variable.alike_trans {a b c : Variable} (h : a.alike b = true) (k : b.alike c = true) :
    a.alike c = true :=
  Variable.alike_iff.2 ((Variable.alike_iff.1 h).trans (Variable.alike_iff.1 k))

theorem Variable.isNamed_eq_of_alike {v w : Variable} (h : v.alike w = true) :
    v.isNamed = w.isNamed := by
  cases v <;> cases w <;> first | rfl | cases Variable.alike_iff.1 h

theorem Variable.eq_of_alike {v w : Variable} (h : v.alike w = true) (hv : v.isNamed = true) :
    v = w := by
  cases v with
  | generated n => cases hv
  | named name =>
    cases w with
    | named other => exact congrArg named (Option.some.inj (alike_iff.1 h))
    | generated n => cases alike_iff.1 h

theorem TypeRef.beq_iff {a b : TypeRef} :
    (a == b) = true ↔ a.var.name? = b.var.name? ∧ a.label = b.label := by
  change (a.var.alike b.var && decide (a.label = b.label)) = true ↔ _
  rw [Bool.and_eq_true, Variable.alike_iff, decide_eq_true_iff]

/-- What the comparison of players looks at. -/
def RolePlayer.shape (rp : RolePlayer) : Option Label × Option String := (rp.role, rp.player.name?)

theorem RolePlayer.beq_iff {a b : RolePlayer} : (a == b) = true ↔ a.shape = b.shape := by
  change (decide (a.role = b.role) && a.player.alike b.player) = true ↔ _
  rw [Bool.and_eq_true, Variable.alike_iff, decide_eq_true_iff, shape, shape, Prod.mk.injEq]

theorem RolePlayer.map_shape_erase (a : RolePlayer) (bs : List RolePlayer) :
    (bs.erase a).map shape = (bs.map shape).erase a.shape := by
  induction bs with
  | nil => rfl
  | cons b bs ih =>
    rw [List.erase_cons, List.map_cons, List.erase_cons]
    by_cases h : b.shape = a.shape
    · simp [h, RolePlayer.beq_iff.2 h]
    · have hb : (b == a) = false := Bool.eq_false_iff.2 fun e => h (RolePlayer.beq_iff.1 e)
      simp [h, hb, ih]

theorem RolePlayer.contains_iff {a : RolePlayer} {bs : List RolePlayer} :
    bs.contains a = true ↔ a.shape ∈ bs.map shape := by
  simp only [List.contains_iff_exists_mem_beq, RolePlayer.beq_iff]
  rw [List.mem_map]
  exact exists_congr fun b => and_congr_right fun _ => eq_comm

theorem RolePlayer.isPerm_iff {as bs : List RolePlayer} :
    as.isPerm bs = true ↔ (as.map shape).Perm (bs.map shape) := by
  induction as generalizing bs with
  | nil => simp [List.isPerm, List.isEmpty_iff]
  | cons a as ih =>
    rw [List.isPerm, Bool.and_eq_true, ih, contains_iff, map_shape_erase, List.map_cons,
      List.cons_perm_iff_perm_erase]

theorem Operand.alike_refl (a : Operand) : a.alike a = true := by
  cases a <;> simp [alike, Variable.alike_refl]

theorem Operand.alike_symm {a b : Operand} (h : a.alike b = true) : b.alike a = true := by
  cases a <;> cases b <;> simp only [alike, decide_eq_true_iff, reduceCtorEq] at h ⊢
  · exact h.symm
  · exact Variable.alike_symm h

theorem Operand.alike_trans {a b c : Operand} (h : a.alike b = true) (k : b.alike c = true) :
    a.alike c = true := by
  cases a <;> cases b <;> cases c <;>
    simp only [alike, decide_eq_true_iff, reduceCtorEq] at h k ⊢
  · exact h.trans k
  · exact Variable.alike_trans h k

theorem ValuePredicate.alike_iff {p q : ValuePredicate} :
    p.alike q = true ↔ p.comparator = q.comparator ∧ p.operand.alike q.operand = true := by
  rw [alike, Bool.and_eq_true, decide_eq_true_iff]

/-- Induction on the properties that an owned attribute has. -/
theorem Property.induction {motive : Property → Prop}
    (has : ∀ type owned, (∀ p ∈ owned.properties, motive p) → motive (.has type owned))
    (other : ∀ p : Property, p.kind ≠ .has → motive p) (p : Property) : motive p :=
  @Property.rec motive (fun s => ∀ p ∈ s.properties, motive p) (fun ps => ∀ p ∈ ps, motive p)
    (fun _ _ => other _ nofun) (fun _ _ => other _ nofun) (fun _ => other _ nofun)
    (fun _ => other _ nofun) (fun _ => other _ nofun) has (fun _ => other _ nofun)
    (fun _ => other _ nofun) (fun _ => other _ nofun) (fun _ _ _ h => h) nofun
    (fun _ _ hp hps _ h => (List.mem_cons.1 h).elim (fun e => e ▸ hp) (hps _)) p

theorem Statement.beq_iff {s t : Statement} :
    (s == t) = true ↔
      s.var.alike t.var = true ∧ s.polarity = t.polarity ∧
        s.properties.length = t.properties.length ∧
        (∀ p ∈ s.properties, ∃ q ∈ t.properties, (p == q) = true) ∧
        ∀ q ∈ t.properties, ∃ p ∈ s.properties, (p == q) = true := by
  rw [Statement.beq_eq]
  simp only [Bool.and_eq_true, decide_eq_true_iff, List.all_eq_true, List.any_eq_true, and_assoc]

theorem Statement.isNegative_eq_of_beq {s t : Statement} (h : (s == t) = true) :
    s.isNegative = t.isNegative := by
  rw [isNegative, isNegative, (beq_iff.1 h).2.1]

theorem TypeRef.beq_refl (a : TypeRef) : (a == a) = true := TypeRef.beq_iff.2 ⟨rfl, rfl⟩

theorem TypeRef.beq_symm {a b : TypeRef} (h : (a == b) = true) : (b == a) = true :=
  TypeRef.beq_iff.2 ((TypeRef.beq_iff.1 h).imp Eq.symm Eq.symm)

theorem TypeRef.beq_trans {a b c : TypeRef} (h : (a == b) = true) (k : (b == c) = true) :
    (a == c) = true := by
  have ⟨hvar, hlabel⟩ := TypeRef.beq_iff.1 h
  have ⟨kvar, klabel⟩ := TypeRef.beq_iff.1 k
  exact TypeRef.beq_iff.2 ⟨hvar.trans kvar, hlabel.trans klabel⟩

namespace Property

theorem isa_beq_isa {a b : TypeRef} {directA directB : Bool} :
    (isa a directA == isa b directB) = true ↔ (a == b) = true ∧ directA = directB := by
  change (a.alike b && decide (directA = directB)) = true ↔ a.alike b = true ∧ _
  rw [Bool.and_eq_true, decide_eq_true_iff]

theorem sub_beq_sub {a b : TypeRef} {directA directB : Bool} :
    (sub a directA == sub b directB) = true ↔ (a == b) = true ∧ directA = directB := isa_beq_isa

theorem label_beq_label {a b : Label} : (label a == label b) = true ↔ a = b := decide_eq_true_iff

theorem id_beq_id {a b : ConceptId} : (id a == id b) = true ↔ a = b := decide_eq_true_iff

theorem dataType_beq_dataType {a b : ValueType} : (dataType a == dataType b) = true ↔ a = b :=
  decide_eq_true_iff

theorem has_beq_has {typeA typeB : Label} {a b : Statement} :
    (has typeA a == has typeB b) = true ↔ typeA = typeB ∧ (a == b) = true := by
  change (decide (typeA = typeB) && (a == b)) = true ↔ _
  rw [Bool.and_eq_true, decide_eq_true_iff]

theorem relation_beq_relation {as bs : List RolePlayer} :
    (relation as == relation bs) = true ↔
      (as.map RolePlayer.shape).Perm (bs.map RolePlayer.shape) :=
  RolePlayer.isPerm_iff

theorem value_beq_value {a b : ValuePredicate} :
    (value a == value b) = true ↔
      a.comparator = b.comparator ∧ a.operand.alike b.operand = true :=
  ValuePredicate.alike_iff

theorem neq_beq_neq {a b : Variable} : (neq a == neq b) = true ↔ a.name? = b.name? :=
  Variable.alike_iff

theorem kind_eq_of_beq {p q : Property} (h : (p == q) = true) : p.kind = q.kind := by
  cases p <;> cases q <;> first | rfl | cases h

theorem beq_refl (p : Property) : (p == p) = true := by
  induction p using Property.induction with
  | has type owned ih =>
    exact has_beq_has.2 ⟨rfl, Statement.beq_iff.2 ⟨Variable.alike_refl _, rfl, rfl,
      fun p hp => ⟨p, hp, ih p hp⟩, fun p hp => ⟨p, hp, ih p hp⟩⟩⟩
  | other p hp =>
    cases p with
    | isa a _ => exact isa_beq_isa.2 ⟨a.beq_refl, rfl⟩
    | sub a _ => exact sub_beq_sub.2 ⟨a.beq_refl, rfl⟩
    | label _ => exact label_beq_label.2 rfl
    | id _ => exact id_beq_id.2 rfl
    | dataType _ => exact dataType_beq_dataType.2 rfl
    | has => exact absurd rfl hp
    | relation _ => exact relation_beq_relation.2 (.refl _)
    | value a => exact value_beq_value.2 ⟨rfl, a.operand.alike_refl⟩
    | neq _ => exact neq_beq_neq.2 rfl

theorem beq_symm {p q : Property} (h : (p == q) = true) : (q == p) = true := by
  have hkind := kind_eq_of_beq h
  induction p using Property.induction generalizing q with
  | has typeA a ih =>
    cases q <;> cases hkind
    have ⟨htype, hab⟩ := has_beq_has.1 h
    have ⟨hvar, hpolarity, hlen, hsub, hsup⟩ := Statement.beq_iff.1 hab
    refine has_beq_has.2 ⟨htype.symm, Statement.beq_iff.2
      ⟨Variable.alike_symm hvar, hpolarity.symm, hlen.symm, fun r hr => ?_, fun p hp => ?_⟩⟩
    · obtain ⟨p, hp, hpr⟩ := hsup r hr
      exact ⟨p, hp, ih p hp hpr (kind_eq_of_beq hpr)⟩
    · obtain ⟨r, hr, hpr⟩ := hsub p hp
      exact ⟨r, hr, ih p hp hpr (kind_eq_of_beq hpr)⟩
  | other p hp =>
    cases p with
    | isa =>
      cases q <;> cases hkind
      exact isa_beq_isa.2 ((isa_beq_isa.1 h).imp TypeRef.beq_symm Eq.symm)
    | sub =>
      cases q <;> cases hkind
      exact sub_beq_sub.2 ((sub_beq_sub.1 h).imp TypeRef.beq_symm Eq.symm)
    | label =>
      cases q <;> cases hkind
      exact label_beq_label.2 (label_beq_label.1 h).symm
    | id =>
      cases q <;> cases hkind
      exact id_beq_id.2 (id_beq_id.1 h).symm
    | dataType =>
      cases q <;> cases hkind
      exact dataType_beq_dataType.2 (dataType_beq_dataType.1 h).symm
    | has => exact absurd rfl hp
    | relation =>
      cases q <;> cases hkind
      exact relation_beq_relation.2 (relation_beq_relation.1 h).symm
    | value =>
      cases q <;> cases hkind
      exact value_beq_value.2 ((value_beq_value.1 h).imp Eq.symm Operand.alike_symm)
    | neq =>
      cases q <;> cases hkind
      exact neq_beq_neq.2 (neq_beq_neq.1 h).symm

theorem beq_trans {p q r : Property} (h : (p == q) = true) (k : (q == r) = true) :
    (p == r) = true := by
  have hkind := kind_eq_of_beq h
  have kkind := kind_eq_of_beq k
  induction p using Property.induction generalizing q r with
  | has typeA a ih =>
    cases q <;> cases hkind
    cases r <;> cases kkind
    have ⟨htype, hab⟩ := has_beq_has.1 h
    have ⟨ktype, kab⟩ := has_beq_has.1 k
    have ⟨hvar, hpolarity, hlen, hsub, hsup⟩ := Statement.beq_iff.1 hab
    have ⟨kvar, kpolarity, klen, ksub, ksup⟩ := Statement.beq_iff.1 kab
    refine has_beq_has.2 ⟨htype.trans ktype, Statement.beq_iff.2
      ⟨Variable.alike_trans hvar kvar, hpolarity.trans kpolarity, hlen.trans klen,
        fun p hp => ?_, fun u hu => ?_⟩⟩
    · obtain ⟨t, ht, hpt⟩ := hsub p hp
      obtain ⟨u, hu, htu⟩ := ksub t ht
      exact ⟨u, hu, ih p hp hpt htu (kind_eq_of_beq hpt) (kind_eq_of_beq htu)⟩
    · obtain ⟨t, ht, htu⟩ := ksup u hu
      obtain ⟨p, hp, hpt⟩ := hsup t ht
      exact ⟨p, hp, ih p hp hpt htu (kind_eq_of_beq hpt) (kind_eq_of_beq htu)⟩
  | other p hp =>
    cases p with
    | isa =>
      cases q <;> cases hkind
      cases r <;> cases kkind
      have ⟨htype, hdirect⟩ := isa_beq_isa.1 h
      have ⟨ktype, kdirect⟩ := isa_beq_isa.1 k
      exact isa_beq_isa.2 ⟨TypeRef.beq_trans htype ktype, hdirect.trans kdirect⟩
    | sub =>
      cases q <;> cases hkind
      cases r <;> cases kkind
      have ⟨htype, hdirect⟩ := sub_beq_sub.1 h
      have ⟨ktype, kdirect⟩ := sub_beq_sub.1 k
      exact sub_beq_sub.2 ⟨TypeRef.beq_trans htype ktype, hdirect.trans kdirect⟩
    | label =>
      cases q <;> cases hkind
      cases r <;> cases kkind
      exact label_beq_label.2 ((label_beq_label.1 h).trans (label_beq_label.1 k))
    | id =>
      cases q <;> cases hkind
      cases r <;> cases kkind
      exact id_beq_id.2 ((id_beq_id.1 h).trans (id_beq_id.1 k))
    | dataType =>
      cases q <;> cases hkind
      cases r <;> cases kkind
      exact dataType_beq_dataType.2 ((dataType_beq_dataType.1 h).trans (dataType_beq_dataType.1 k))
    | has => exact absurd rfl hp
    | relation =>
      cases q <;> cases hkind
      cases r <;> cases kkind
      exact relation_beq_relation.2 ((relation_beq_relation.1 h).trans (relation_beq_relation.1 k))
    | value =>
      cases q <;> cases hkind
      cases r <;> cases kkind
      have ⟨hcomparator, hoperand⟩ := value_beq_value.1 h
      have ⟨kcomparator, koperand⟩ := value_beq_value.1 k
      exact value_beq_value.2
        ⟨hcomparator.trans kcomparator, Operand.alike_trans hoperand koperand⟩
    | neq =>
      cases q <;> cases hkind
      cases r <;> cases kkind
      exact neq_beq_neq.2 ((neq_beq_neq.1 h).trans (neq_beq_neq.1 k))

end Property

instance : EquivBEq Property where
  rfl := Property.beq_refl _
  symm := Property.beq_symm
  trans := Property.beq_trans

theorem Statement.beq_iff_has_beq {s t : Statement} :
    (s == t) = true ↔ (Property.has ⟨""⟩ s == .has ⟨""⟩ t) = true := by
  simp [Property.has_beq_has]

instance : EquivBEq Statement where
  rfl := Statement.beq_iff_has_beq.2 BEq.rfl
  symm h := Statement.beq_iff_has_beq.2 (BEq.symm (Statement.beq_iff_has_beq.1 h))
  trans h k := Statement.beq_iff_has_beq.2
    (BEq.trans (Statement.beq_iff_has_beq.1 h) (Statement.beq_iff_has_beq.1 k))

end GraphQuery
