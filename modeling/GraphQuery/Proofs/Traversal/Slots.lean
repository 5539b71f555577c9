import GraphQuery.Proofs.Pattern.Parts
import GraphQuery.Proofs.Statement.Equality
import GraphQuery.Proofs.Traversal.Meaning

/-!
# Unnamed slots

A generated variable is a slot that a query leaves unnamed. Where each slot of a statement has a
variable of its own, the slots can be filled one by one, and whether that can be done depends on the
shape of the statement alone. So of two such statements of one shape, either can be made true where
the other is (`Statement.exists_holds_of_beq`).
-/

namespace GraphQuery

variable {U : Type*}

mutual

/-- The variables of a property, each as often as it stands there. -/
def Property.slots : Property → List Variable
  | .isa type _ => [type.var]
  | .sub superType _ => [superType.var]
  | .label _ | .id _ | .dataType _ => []
  | .has _ owned => owned.slots
  | .relation players => players.map (·.player)
  | .value predicate => predicate.operand.var?.toList
  | .neq other => [other]

/-- The variables of a statement, each as often as it stands there. -/
def Statement.slots : Statement → List Variable
  | ⟨var, _, properties⟩ => var :: Property.slotsOf properties

def Property.slotsOf : List Property → List Variable
  | [] => []
  | p :: ps => p.slots ++ Property.slotsOf ps

end

theorem Property.slotsOf_eq_flatMap (ps : List Property) :
    Property.slotsOf ps = ps.flatMap Property.slots := by
  induction ps with
  | nil => rfl
  | cons p ps ih => rw [Property.slotsOf, ih, List.flatMap_cons]

theorem Statement.slots_eq (s : Statement) :
    s.slots = s.var :: s.properties.flatMap Property.slots := by
  obtain ⟨_, _, properties⟩ := s
  rw [slots, Property.slotsOf_eq_flatMap]

/-- The slots among some variables: those without a name. -/
def unnamed (vs : List Variable) : List Variable := vs.filter (!·.isNamed)

theorem mem_unnamed {vs : List Variable} {v : Variable} :
    v ∈ unnamed vs ↔ v ∈ vs ∧ v.isNamed = false := by
  simp [unnamed]

theorem not_mem_unnamed_of_isNamed {vs : List Variable} {v : Variable} (h : v.isNamed = true) :
    v ∉ unnamed vs := by
  simp [mem_unnamed, h]

theorem unnamed_append (vs ws : List Variable) : unnamed (vs ++ ws) = unnamed vs ++ unnamed ws :=
  List.filter_append vs ws

theorem not_mem_unnamed_of_nodup {vs ws : List Variable} (h : (unnamed (vs ++ ws)).Nodup)
    {v : Variable} (hv : v ∈ vs) : v ∉ unnamed ws := by
  intro hmem
  rw [unnamed_append] at h
  have hdisjoint := (List.nodup_append.1 h).2.2
  exact hdisjoint v (mem_unnamed.2 ⟨hv, (mem_unnamed.1 hmem).2⟩) v hmem rfl

/-- That a property holds of a concept, and the statements that it carries hold too. -/
def Property.HoldsWithin (g : Graph U) (a : Variable → U) (concept : U) (p : Property) : Prop :=
  p.Holds g a concept ∧ ∀ s ∈ p.carried, s.Holds g a

theorem Property.inner_eq (p : Property) : p.inner = p.carried.flatMap (·.withInner) := by
  have hlabel (type : TypeRef) :
      type.labelStatement?.toList = type.labelStatement?.toList.flatMap (·.withInner) := by
    cases h : type.label <;>
      simp [TypeRef.labelStatement?, h, Statement.withInner, Statement.inner, innerOf, inner]
  cases p with
  | isa type => simpa only [inner, carried] using hlabel type
  | sub superType => simpa only [inner, carried] using hlabel superType
  | has type owned => simp [inner, carried, Statement.withInner]
  | label => rfl
  | id => rfl
  | dataType => rfl
  | relation => rfl
  | value => rfl
  | neq => rfl

theorem Statement.holds_iff {g : Graph U} {a : Variable → U} {s : Statement} :
    s.Holds g a ↔ ∀ p ∈ s.properties, p.HoldsWithin g a (a s.var) := by
  have hinner : (∀ t ∈ s.inner, ∀ q ∈ t.properties, q.Holds g a (a t.var)) ↔
      ∀ p ∈ s.properties, ∀ t ∈ p.carried, t.Holds g a := by
    simp only [s.inner_eq, Property.inner_eq, List.mem_flatMap, Holds]
    grind
  rw [Holds, withInner, List.forall_mem_cons, hinner]
  simp only [Property.HoldsWithin]
  exact ⟨fun h p hp => ⟨h.1 p hp, h.2 p hp⟩, fun h => ⟨fun p hp => (h p hp).1, fun p hp => (h p hp).2⟩⟩

theorem TypeRef.holds_labelStatement? {g : Graph U} {a : Variable → U} {type : TypeRef} :
    (∀ s ∈ type.labelStatement?.toList, s.Holds g a) ↔ ∀ l ∈ type.label, g.label (a type.var) l := by
  cases h : type.label <;>
    simp [labelStatement?, h, Statement.Holds, Statement.withInner, Statement.inner,
      Property.innerOf, Property.inner, Property.Holds]

theorem TypeRef.allVars_labelStatement? {type : TypeRef} {s : Statement} {v : Variable}
    (hs : s ∈ type.labelStatement?.toList) (hv : v ∈ s.allVars) : v = type.var := by
  cases h : type.label with
  | none => simp [labelStatement?, h] at hs
  | some l =>
    have hs : s = ⟨type.var, .positive, [.label l]⟩ := by simpa [labelStatement?, h] using hs
    subst hs
    simpa [Statement.allVars, Statement.withInner, Statement.inner, Property.innerOf,
      Property.inner, Statement.mem_vars, Property.vars] using hv

theorem Statement.mem_allVars {s : Statement} {v : Variable} : v ∈ s.allVars ↔
    v = s.var ∨ ∃ p ∈ s.properties, v ∈ p.vars ∨ ∃ t ∈ p.carried, v ∈ t.allVars := by
  rw [allVars, withInner, List.flatMap_cons, List.mem_append, mem_vars, s.inner_eq]
  simp only [Property.inner_eq, allVars, List.mem_flatMap]
  grind

theorem Statement.mem_slots_of {s : Statement} {v : Variable} (h : ∀ p ∈ s.properties,
    v ∈ p.slots ↔ v ∈ p.vars ∨ ∃ t ∈ p.carried, v ∈ t.allVars) :
    v ∈ s.slots ↔ v ∈ s.allVars := by
  rw [slots_eq, List.mem_cons, List.mem_flatMap, mem_allVars]
  exact or_congr_right (exists_congr fun p => and_congr_right (h p))

/-- The slots of a property are what it and the statements that it carries mention. -/
theorem Property.mem_slots (p : Property) (v : Variable) :
    v ∈ p.slots ↔ v ∈ p.vars ∨ ∃ s ∈ p.carried, v ∈ s.allVars := by
  induction p using Property.induction with
  | has type owned ih =>
    have howned : v ∈ owned.vars → v ∈ owned.allVars := fun hv =>
      List.mem_flatMap.2 ⟨owned, List.mem_cons_self, hv⟩
    simpa [slots, vars, carried, Statement.mem_slots_of ih] using howned
  | other p hp =>
    cases p with
    | isa type | sub type =>
      have hlabel : ∀ s ∈ type.labelStatement?.toList, v ∈ s.allVars → v = type.var :=
        fun s hs => TypeRef.allVars_labelStatement? hs
      simpa [slots, vars, carried] using hlabel
    | has => exact absurd rfl hp
    | label | id | dataType | relation | value | neq => simp [slots, vars, carried]

/-- The variables of a statement are those that stand in it. -/
theorem Statement.mem_slots {s : Statement} {v : Variable} : v ∈ s.slots ↔ v ∈ s.allVars :=
  mem_slots_of fun p _ => p.mem_slots v

/-- That all variables of a property and of the statements that it carries are among its slots. -/
def Property.InSlots (p : Property) : Prop :=
  (∀ v ∈ p.vars, v ∈ p.slots) ∧ ∀ s ∈ p.carried, ∀ v ∈ s.allVars, v ∈ p.slots

theorem Property.inSlots (p : Property) : p.InSlots :=
  ⟨fun v hv => (p.mem_slots v).2 (.inl hv), fun s hs v hv => (p.mem_slots v).2 (.inr ⟨s, hs, hv⟩)⟩

theorem Property.holdsWithin_congr {g : Graph U} {a b : Variable → U} {concept : U} {p : Property}
    (h : ∀ v ∈ p.slots, a v = b v) : p.HoldsWithin g a concept ↔ p.HoldsWithin g b concept := by
  refine and_congr (Property.holds_congr (fun v hv => h v (p.inSlots.1 v hv)) concept) ?_
  exact forall₂_congr fun s hs => Statement.holds_congr fun v hv => h v (p.inSlots.2 s hs v hv)

/-- That a variable can stand for a concept: a slot for any, a named variable for its own. -/
def Variable.Takes (a : Variable → U) (v : Variable) (concept : U) : Prop :=
  v.isNamed = true → a v = concept

def TypeRef.Takes (g : Graph U) (a : Variable → U) (type : TypeRef) (concept : U) : Prop :=
  type.var.Takes a concept ∧ ∀ l ∈ type.label, g.label concept l

mutual

/-- That a property holds of a concept if each of its slots is filled without regard to others. -/
def Property.Fillable (g : Graph U) (a : Variable → U) (concept : U) : Property → Prop
  | .isa type direct => ∃ other, type.Takes g a other ∧ g.instanceOf direct concept other
  | .sub superType direct => ∃ other, superType.Takes g a other ∧ g.below direct concept other
  | .label l => g.label concept l
  | .id number => g.id concept number
  | .dataType type => g.dataType concept type
  | .has _ owned => ∃ other, g.has concept other ∧ owned.Fillable g a other
  | .relation players => ∀ rp ∈ players, ∃ other, rp.player.Takes a other ∧
      ∃ edge, g.playing rp.role concept edge other
  | .value predicate => match predicate.operand with
    | .constant _ => g.admits predicate a concept
    | .var v => ∃ other, v.Takes a other ∧ g.admits predicate (fun _ => other) concept
  | .neq v => ∃ other, v.Takes a other ∧ concept ≠ other

/-- That a statement holds of a concept if each of its slots is filled without regard to others. -/
def Statement.Fillable (g : Graph U) (a : Variable → U) (concept : U) : Statement → Prop
  | ⟨var, _, properties⟩ => var.Takes a concept ∧ Property.FillableAll g a concept properties

def Property.FillableAll (g : Graph U) (a : Variable → U) (concept : U) : List Property → Prop
  | [] => True
  | p :: ps => p.Fillable g a concept ∧ Property.FillableAll g a concept ps

end

theorem Statement.fillable_iff {g : Graph U} {a : Variable → U} {concept : U} {s : Statement} :
    s.Fillable g a concept ↔
      s.var.Takes a concept ∧ ∀ p ∈ s.properties, p.Fillable g a concept := by
  have hall (ps : List Property) :
      Property.FillableAll g a concept ps ↔ ∀ p ∈ ps, p.Fillable g a concept := by
    induction ps with
    | nil => simp [Property.FillableAll]
    | cons p ps ih => rw [Property.FillableAll, ih, List.forall_mem_cons]
  obtain ⟨var, _, properties⟩ := s
  rw [Fillable, hall]

theorem Variable.takes_self (a : Variable → U) (v : Variable) : v.Takes a (a v) := fun _ => rfl

theorem Statement.fillable_of {g : Graph U} {a : Variable → U} {s : Statement}
    (h : ∀ p ∈ s.properties, p.HoldsWithin g a (a s.var) → p.Fillable g a (a s.var))
    (hs : s.Holds g a) : s.Fillable g a (a s.var) :=
  fillable_iff.2 ⟨Variable.takes_self a s.var, fun p hp => h p hp (holds_iff.1 hs p hp)⟩

theorem Property.HoldsWithin.fillable {g : Graph U} {a : Variable → U} {concept : U} {p : Property}
    (h : p.HoldsWithin g a concept) : p.Fillable g a concept := by
  induction p using Property.induction generalizing concept with
  | has type owned ih =>
    exact ⟨a owned.var, h.1,
      Statement.fillable_of (fun q hq => ih q hq) (h.2 owned (by simp [carried]))⟩
  | other p hp =>
    obtain ⟨hholds, hcarried⟩ := h
    cases p with
    | isa type direct =>
      exact ⟨_, ⟨Variable.takes_self a _, TypeRef.holds_labelStatement?.1 hcarried⟩, hholds⟩
    | sub superType direct =>
      exact ⟨_, ⟨Variable.takes_self a _, TypeRef.holds_labelStatement?.1 hcarried⟩, hholds⟩
    | label => exact hholds
    | id => exact hholds
    | dataType => exact hholds
    | has => exact absurd rfl hp
    | relation => exact fun rp hrp => ⟨_, Variable.takes_self a _, hholds rp hrp⟩
    | value predicate =>
      rw [Fillable]
      split
      case h_1 => exact hholds
      case h_2 v hoperand =>
        refine ⟨a v, Variable.takes_self a v, (g.admits_congr ?_ concept).1 hholds⟩
        simp [hoperand, Operand.var?]
    | neq => exact ⟨_, Variable.takes_self a _, hholds⟩

theorem Statement.Holds.fillable {g : Graph U} {a : Variable → U} {s : Statement}
    (h : s.Holds g a) : s.Fillable g a (a s.var) :=
  fillable_of (fun _ _ hp => hp.fillable) h

theorem Variable.Takes.congr {a b : Variable → U} {v w : Variable} {concept : U}
    (hab : ∀ u : Variable, u.isNamed = true → a u = b u) (hvw : v.alike w = true)
    (h : v.Takes a concept) : w.Takes b concept := by
  intro hw
  have hv : v.isNamed = true := (isNamed_eq_of_alike hvw).trans hw
  obtain rfl := eq_of_alike hvw hv
  rw [← hab v hv]
  exact h hv

theorem TypeRef.Takes.congr {g : Graph U} {a b : Variable → U} {s t : TypeRef} {concept : U}
    (hab : ∀ u : Variable, u.isNamed = true → a u = b u) (hst : (s == t) = true)
    (h : s.Takes g a concept) : t.Takes g b concept := by
  obtain ⟨hvar, hlabel⟩ := TypeRef.beq_iff.1 hst
  exact ⟨h.1.congr hab (Variable.alike_iff.2 hvar), hlabel ▸ h.2⟩

theorem Statement.Fillable.congr_of {g : Graph U} {a b : Variable → U} {s t : Statement}
    {concept : U}
    (hproperty : ∀ p ∈ s.properties, ∀ q, (p == q) = true → p.Fillable g a concept →
      q.Fillable g b concept)
    (hab : ∀ u : Variable, u.isNamed = true → a u = b u) (hst : (s == t) = true)
    (h : s.Fillable g a concept) : t.Fillable g b concept := by
  obtain ⟨hvar, -, -, -, hcover⟩ := Statement.beq_iff.1 hst
  rw [fillable_iff] at h ⊢
  refine ⟨h.1.congr hab hvar, fun q hq => ?_⟩
  obtain ⟨p, hp, hpq⟩ := hcover q hq
  exact hproperty p hp q hpq (h.2 p hp)

theorem Property.Fillable.congr {g : Graph U} {a b : Variable → U} {p q : Property} {concept : U}
    (hab : ∀ u : Variable, u.isNamed = true → a u = b u) (hpq : (p == q) = true)
    (h : p.Fillable g a concept) : q.Fillable g b concept := by
  have hkind := kind_eq_of_beq hpq
  induction p using Property.induction generalizing q concept with
  | has type owned ih =>
    cases q <;> cases hkind
    obtain ⟨-, howned⟩ := has_beq_has.1 hpq
    obtain ⟨other, hhas, hfill⟩ := h
    refine ⟨other, hhas, hfill.congr_of (fun p hp q hpq hp' => ?_) hab howned⟩
    exact ih p hp hpq hp' (kind_eq_of_beq hpq)
  | other p hp =>
    cases p with
    | isa type direct =>
      cases q <;> cases hkind
      obtain ⟨htype, rfl⟩ := isa_beq_isa.1 hpq
      exact h.imp fun _ h => ⟨h.1.congr hab htype, h.2⟩
    | sub superType direct =>
      cases q <;> cases hkind
      obtain ⟨htype, rfl⟩ := sub_beq_sub.1 hpq
      exact h.imp fun _ h => ⟨h.1.congr hab htype, h.2⟩
    | label l =>
      cases q <;> cases hkind
      exact label_beq_label.1 hpq ▸ h
    | id number =>
      cases q <;> cases hkind
      exact id_beq_id.1 hpq ▸ h
    | dataType type =>
      cases q <;> cases hkind
      exact dataType_beq_dataType.1 hpq ▸ h
    | has => exact absurd rfl hp
    | relation players =>
      cases q <;> cases hkind
      rename_i others
      intro rp hrp
      have hshape : rp.shape ∈ players.map RolePlayer.shape :=
        (relation_beq_relation.1 hpq).mem_iff.2 (List.mem_map.2 ⟨rp, hrp, rfl⟩)
      obtain ⟨known, hknown, heq⟩ := List.mem_map.1 hshape
      obtain ⟨hrole, hname⟩ := Prod.mk.inj heq
      obtain ⟨other, htakes, hedge⟩ := h known hknown
      exact ⟨other, htakes.congr hab (Variable.alike_iff.2 hname), hrole ▸ hedge⟩
    | value predicate =>
      cases q <;> cases hkind
      rename_i other
      obtain ⟨comparator, operand⟩ := predicate
      obtain ⟨_, operand'⟩ := other
      obtain ⟨rfl, hoperand⟩ := value_beq_value.1 hpq
      cases operand <;> cases operand' <;> simp only [Operand.alike, reduceCtorEq] at hoperand
      case constant =>
        rw [decide_eq_true_iff] at hoperand
        exact hoperand ▸ h
      case var => exact h.imp fun _ h => ⟨h.1.congr hab hoperand, h.2⟩
    | neq v =>
      cases q <;> cases hkind
      exact h.imp fun _ h => ⟨h.1.congr hab (Variable.alike_iff.2 (neq_beq_neq.1 hpq)), h.2⟩

theorem Statement.Fillable.congr {g : Graph U} {a b : Variable → U} {s t : Statement} {concept : U}
    (hab : ∀ u : Variable, u.isNamed = true → a u = b u) (hst : (s == t) = true)
    (h : s.Fillable g a concept) : t.Fillable g b concept :=
  h.congr_of (fun _ _ _ hpq hp => hp.congr hab hpq) hab hst

theorem Variable.Takes.exists_eq {a : Variable → U} {v : Variable} {concept : U}
    (h : v.Takes a concept) :
    ∃ b : Variable → U, (∀ w, w ∉ unnamed [v] → b w = a w) ∧ b v = concept := by
  cases hv : v.isNamed with
  | true => exact ⟨a, fun _ _ => rfl, h hv⟩
  | false =>
    refine ⟨Function.update a v concept, fun w hw => ?_, Function.update_self ..⟩
    have hwv : w ≠ v := by
      rintro rfl
      exact hw (mem_unnamed.2 ⟨List.mem_cons_self, hv⟩)
    exact Function.update_of_ne hwv ..

/-- Assertions with slots of their own can be made true one after the other. -/
theorem exists_forall_of_slots {α : Type} {xs : List α} {slots : α → List Variable}
    {P : α → (Variable → U) → Prop} {a : Variable → U} (hnodup : (unnamed (xs.flatMap slots)).Nodup)
    (hcongr : ∀ x ∈ xs, ∀ b c : Variable → U, (∀ v ∈ slots x, b v = c v) → P x b → P x c)
    (hfill : ∀ x ∈ xs, (unnamed (slots x)).Nodup → ∀ b : Variable → U,
      (∀ v : Variable, v.isNamed = true → a v = b v) →
        ∃ c : Variable → U, (∀ v, v ∉ unnamed (slots x) → c v = b v) ∧ P x c) :
    ∃ b : Variable → U, (∀ v, v ∉ unnamed (xs.flatMap slots) → b v = a v) ∧ ∀ x ∈ xs, P x b := by
  induction xs generalizing a with
  | nil => exact ⟨a, fun _ _ => rfl, by simp⟩
  | cons x xs ih =>
    rw [List.flatMap_cons] at hnodup ⊢
    have hkeep {v : Variable} (hv : v ∈ slots x) : v ∉ unnamed (xs.flatMap slots) :=
      not_mem_unnamed_of_nodup hnodup hv
    rw [unnamed_append] at hnodup ⊢
    obtain ⟨hx, hxs, -⟩ := List.nodup_append.1 hnodup
    rw [List.forall_mem_cons] at hcongr hfill
    obtain ⟨b, hb, hPb⟩ := hfill.1 hx a fun _ _ => rfl
    have hnamed : ∀ v : Variable, v.isNamed = true → a v = b v :=
      fun v hv => (hb v (not_mem_unnamed_of_isNamed hv)).symm
    obtain ⟨c, hc, hPc⟩ := ih hxs hcongr.2 fun y hy hn d hd =>
      hfill.2 y hy hn d fun v hv => (hnamed v hv).trans (hd v hv)
    have hPc' : P x c := hcongr.1 b c (fun v hv => (hc v (hkeep hv)).symm) hPb
    refine ⟨c, fun v hv => ?_, List.forall_mem_cons.2 ⟨hPc', hPc⟩⟩
    rw [List.mem_append, not_or] at hv
    rw [hc v hv.2, hb v hv.1]

theorem Statement.exists_holds_of {g : Graph U} {s : Statement}
    (hproperty : ∀ p ∈ s.properties, ∀ (a : Variable → U) (concept : U), p.Fillable g a concept →
      (unnamed p.slots).Nodup →
        ∃ b : Variable → U, (∀ v, v ∉ unnamed p.slots → b v = a v) ∧ p.HoldsWithin g b concept)
    {a : Variable → U} {concept : U} (h : s.Fillable g a concept)
    (hnodup : (unnamed s.slots).Nodup) :
    ∃ b : Variable → U, (∀ v, v ∉ unnamed s.slots → b v = a v) ∧ b s.var = concept ∧ s.Holds g b := by
  obtain ⟨htakes, hproperties⟩ := fillable_iff.1 h
  obtain ⟨b, hb, hvar⟩ := htakes.exists_eq
  rw [slots_eq, ← List.singleton_append] at hnodup ⊢
  have hkeep : s.var ∉ unnamed (s.properties.flatMap Property.slots) :=
    not_mem_unnamed_of_nodup hnodup List.mem_cons_self
  rw [unnamed_append] at hnodup ⊢
  obtain ⟨-, hrest, -⟩ := List.nodup_append.1 hnodup
  have hnamed : ∀ v : Variable, v.isNamed = true → a v = b v :=
    fun v hv => (hb v (not_mem_unnamed_of_isNamed hv)).symm
  obtain ⟨c, hc, hholds⟩ := exists_forall_of_slots (a := b)
    (P := fun p b => p.HoldsWithin g b concept) hrest
    (fun p _ d e hde => (Property.holdsWithin_congr hde).1)
    fun p hp hn d hd => hproperty p hp d concept
      ((hproperties p hp).congr (fun v hv => (hnamed v hv).trans (hd v hv)) BEq.rfl) hn
  have hvar : c s.var = concept := by rw [hc s.var hkeep, hvar]
  refine ⟨c, fun v hv => ?_, hvar, holds_iff.2 fun p hp => hvar ▸ hholds p hp⟩
  rw [List.mem_append, not_or] at hv
  rw [hc v hv.2, hb v hv.1]

/-- Where each slot of a property has a variable of its own, all of them can be filled together. -/
theorem Property.exists_holdsWithin {g : Graph U} {p : Property} {a : Variable → U} {concept : U}
    (h : p.Fillable g a concept) (hnodup : (unnamed p.slots).Nodup) :
    ∃ b : Variable → U, (∀ v, v ∉ unnamed p.slots → b v = a v) ∧ p.HoldsWithin g b concept := by
  induction p using Property.induction generalizing a concept with
  | has type owned ih =>
    obtain ⟨other, hhas, hfill⟩ := h
    obtain ⟨b, hb, hvar, hholds⟩ := Statement.exists_holds_of
      (fun p hp a concept => ih p hp) hfill hnodup
    refine ⟨b, hb, ?_, by simpa [carried] using hholds⟩
    rw [Holds, hvar]
    exact hhas
  | other p hp =>
    cases p with
    | isa type direct =>
      obtain ⟨other, htakes, hholds⟩ := h
      obtain ⟨b, hb, hvar⟩ := htakes.1.exists_eq
      refine ⟨b, hb, ?_, TypeRef.holds_labelStatement?.2 (hvar ▸ htakes.2)⟩
      rw [Holds, hvar]
      exact hholds
    | sub superType direct =>
      obtain ⟨other, htakes, hholds⟩ := h
      obtain ⟨b, hb, hvar⟩ := htakes.1.exists_eq
      refine ⟨b, hb, ?_, TypeRef.holds_labelStatement?.2 (hvar ▸ htakes.2)⟩
      rw [Holds, hvar]
      exact hholds
    | label => exact ⟨a, fun _ _ => rfl, h, List.forall_mem_nil _⟩
    | id => exact ⟨a, fun _ _ => rfl, h, List.forall_mem_nil _⟩
    | dataType => exact ⟨a, fun _ _ => rfl, h, List.forall_mem_nil _⟩
    | has => exact absurd rfl hp
    | relation players =>
      have hslots : (relation players).slots = players.flatMap fun rp => [rp.player] := by
        rw [slots, List.map_eq_flatMap]
      rw [hslots] at hnodup ⊢
      have hplayer : ∀ rp ∈ players, (unnamed [rp.player]).Nodup → ∀ c : Variable → U,
          (∀ v : Variable, v.isNamed = true → a v = c v) →
            ∃ b : Variable → U, (∀ v, v ∉ unnamed [rp.player] → b v = c v) ∧
              ∃ edge, g.playing rp.role concept edge (b rp.player) := by
        intro rp hrp _ c hc
        obtain ⟨other, htakes, hedge⟩ := h rp hrp
        obtain ⟨b, hb, hvar⟩ := (htakes.congr hc (Variable.alike_refl _)).exists_eq
        exact ⟨b, hb, hvar ▸ hedge⟩
      obtain ⟨b, hb, hholds⟩ := exists_forall_of_slots hnodup
        (fun rp _ b c hbc => by simp only [hbc rp.player List.mem_cons_self, imp_self]) hplayer
      exact ⟨b, hb, hholds, List.forall_mem_nil _⟩
    | value predicate =>
      obtain ⟨comparator, operand⟩ := predicate
      cases operand with
      | constant => exact ⟨a, fun _ _ => rfl, h, List.forall_mem_nil _⟩
      | var v =>
        obtain ⟨other, htakes, hholds⟩ := h
        obtain ⟨b, hb, hvar⟩ := htakes.exists_eq
        refine ⟨b, hb, (g.admits_congr ?_ concept).1 hholds, List.forall_mem_nil _⟩
        simp [Operand.var?, hvar]
    | neq v =>
      obtain ⟨other, htakes, hholds⟩ := h
      obtain ⟨b, hb, hvar⟩ := htakes.exists_eq
      refine ⟨b, hb, ?_, List.forall_mem_nil _⟩
      rw [Holds, hvar]
      exact hholds

/-- A statement with a variable of its own for each slot holds, once its slots are filled, where one
of its shape holds. -/
theorem Statement.exists_holds_of_beq {g : Graph U} {s t : Statement} {a : Variable → U}
    (hst : (s == t) = true) (hs : s.Holds g a) (hnodup : (unnamed t.slots).Nodup) :
    ∃ b : Variable → U, (∀ v, v ∉ unnamed t.slots → b v = a v) ∧ t.Holds g b := by
  have hfill : t.Fillable g a (a s.var) := hs.fillable.congr (fun _ _ => rfl) hst
  obtain ⟨b, hb, -, hholds⟩ := exists_holds_of
    (fun p _ _ _ h hnodup => Property.exists_holdsWithin h hnodup) hfill hnodup
  exact ⟨b, hb, hholds⟩

end GraphQuery
