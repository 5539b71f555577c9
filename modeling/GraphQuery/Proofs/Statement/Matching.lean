import GraphQuery.Proofs.Collection.Distinct
import GraphQuery.Proofs.Collection.Pairing
import GraphQuery.Proofs.Traversal.Slots

/-!
# Matching statements

A statement matches another when its properties can be sent to those of the other, such that all of
those are hit and the variables that come to stand in the same place are related. Equality of shape is
such a matching, and so is exact equality after a renaming; what a matching relates can be read off
place by place (`Statement.Matches.exists_slots`).
-/

namespace GraphQuery

variable {U : Type*} {R R' : Variable → Variable → Prop}

mutual

/-- The properties say the same of related variables. -/
def Property.Matches (R : Variable → Variable → Prop) : Property → Property → Prop
  | .isa a directA, .isa b directB => R a.var b.var ∧ a.label = b.label ∧ directA = directB
  | .sub a directA, .sub b directB => R a.var b.var ∧ a.label = b.label ∧ directA = directB
  | .label a, .label b => a = b
  | .id a, .id b => a = b
  | .dataType a, .dataType b => a = b
  | .has typeA a, .has typeB b => typeA = typeB ∧ a.Matches R b
  | .relation as, .relation bs =>
    ∃ cs : List RolePlayer, cs.Perm bs ∧
      List.Forall₂ (fun a c => a.role = c.role ∧ R a.player c.player) as cs
  | .value a, .value b =>
    a.comparator = b.comparator ∧ match a.operand, b.operand with
      | .constant c, .constant d => c = d
      | .var v, .var w => R v w
      | _, _ => False
  | .neq v, .neq w => R v w
  | _, _ => False
  termination_by structural p => p

/-- The statements say the same of related variables: the properties of the first are sent to those of
the second, and each of these is hit. -/
def Statement.Matches (R : Variable → Variable → Prop) : Statement → Statement → Prop
  | ⟨varA, polarityA, as⟩, ⟨varB, polarityB, bs⟩ =>
    R varA varB ∧ polarityA = polarityB ∧
      ∃ cs : List Property, (∀ c, c ∈ cs ↔ c ∈ bs) ∧ Property.MatchesAll R as cs

def Property.MatchesAll (R : Variable → Variable → Prop) : List Property → List Property → Prop
  | [], [] => True
  | a :: as, b :: bs => a.Matches R b ∧ Property.MatchesAll R as bs
  | _, _ => False

end

theorem Property.matchesAll_iff {ps qs : List Property} :
    Property.MatchesAll R ps qs ↔ List.Forall₂ (Property.Matches R) ps qs := by
  induction ps generalizing qs with
  | nil => cases qs <;> simp [MatchesAll]
  | cons p ps ih =>
    cases qs with
    | nil => simp [MatchesAll]
    | cons q qs => rw [MatchesAll, ih, List.forall₂_cons]

theorem Statement.matches_iff {s t : Statement} :
    s.Matches R t ↔ R s.var t.var ∧ s.polarity = t.polarity ∧
      ∃ qs : List Property, (∀ q, q ∈ qs ↔ q ∈ t.properties) ∧
        List.Forall₂ (Property.Matches R) s.properties qs := by
  obtain ⟨_, _, ps⟩ := s
  obtain ⟨_, _, qs⟩ := t
  simp only [Matches, Property.matchesAll_iff]

theorem Property.Matches.kind_eq {p q : Property} (h : p.Matches R q) : p.kind = q.kind := by
  cases p <;> cases q <;> first | rfl | cases h

/-- What a matching relates: some variables, one for each slot, such that any relation that holds of
them place by place makes for a matching. -/
def Property.ReadsAs (p q : Property) (ws : List Variable) : Prop :=
  ∀ R : Variable → Variable → Prop, List.Forall₂ R p.slots ws → p.Matches R q

theorem exists_slots_of_forall₂ {ps qs : List Property}
    (hslots : ∀ p ∈ ps, ∀ q, p.Matches R q → ∃ ws, List.Forall₂ R p.slots ws ∧ p.ReadsAs q ws)
    (h : List.Forall₂ (Property.Matches R) ps qs) :
    ∃ ws, List.Forall₂ R (ps.flatMap Property.slots) ws ∧
      ∀ R' : Variable → Variable → Prop, List.Forall₂ R' (ps.flatMap Property.slots) ws →
        List.Forall₂ (Property.Matches R') ps qs := by
  induction h with
  | nil => exact ⟨[], .nil, fun _ _ => .nil⟩
  | @cons p q ps qs hpq _ ih =>
    rw [List.forall_mem_cons] at hslots
    obtain ⟨ws, hws, hp⟩ := hslots.1 q hpq
    obtain ⟨ws', hws', hps⟩ := ih hslots.2
    refine ⟨ws ++ ws', List.rel_append hws hws', fun R' h => ?_⟩
    rw [List.flatMap_cons] at h
    have hfront := List.forall₂_take_append _ _ _ h
    have hback := List.forall₂_drop_append _ _ _ h
    rw [← hws.length_eq, List.take_left] at hfront
    rw [← hws.length_eq, List.drop_left] at hback
    exact .cons (hp R' hfront) (hps R' hback)

theorem Statement.exists_slots_of {s t : Statement}
    (hslots : ∀ p ∈ s.properties, ∀ q, p.Matches R q →
      ∃ ws, List.Forall₂ R p.slots ws ∧ p.ReadsAs q ws)
    (h : s.Matches R t) :
    ∃ ws, List.Forall₂ R s.slots ws ∧
      ∀ R' : Variable → Variable → Prop, List.Forall₂ R' s.slots ws → s.Matches R' t := by
  obtain ⟨hvar, hpolarity, qs, hqs, hall⟩ := matches_iff.1 h
  obtain ⟨ws, hws, hread⟩ := exists_slots_of_forall₂ hslots hall
  rw [slots_eq]
  refine ⟨t.var :: ws, .cons hvar hws, fun R' h' => ?_⟩
  obtain ⟨hvar', hws'⟩ := List.forall₂_cons.1 h'
  exact matches_iff.2 ⟨hvar', hpolarity, qs, hqs, hread R' hws'⟩

theorem Property.Matches.exists_slots {p q : Property} (h : p.Matches R q) :
    ∃ ws, List.Forall₂ R p.slots ws ∧ p.ReadsAs q ws := by
  have hkind := h.kind_eq
  have hone {v w : Variable} (hvw : R v w) : List.Forall₂ R [v] [w] := .cons hvw .nil
  induction p using Property.induction generalizing q with
  | has type owned ih =>
    cases q <;> cases hkind
    obtain ⟨htype, howned⟩ := h
    obtain ⟨ws, hws, hread⟩ :=
      Statement.exists_slots_of (fun p hp q hpq => ih p hp hpq hpq.kind_eq) howned
    exact ⟨ws, hws, fun R' h' => ⟨htype, hread R' h'⟩⟩
  | other p hp =>
    cases p with
    | isa type direct =>
      cases q <;> cases hkind
      exact ⟨_, hone h.1, fun R' h' => ⟨(List.forall₂_cons.1 h').1, h.2⟩⟩
    | sub superType direct =>
      cases q <;> cases hkind
      exact ⟨_, hone h.1, fun R' h' => ⟨(List.forall₂_cons.1 h').1, h.2⟩⟩
    | label l =>
      cases q <;> cases hkind
      exact ⟨[], .nil, fun _ _ => h⟩
    | id number =>
      cases q <;> cases hkind
      exact ⟨[], .nil, fun _ _ => h⟩
    | dataType type =>
      cases q <;> cases hkind
      exact ⟨[], .nil, fun _ _ => h⟩
    | has => exact absurd rfl hp
    | relation players =>
      cases q <;> cases hkind
      obtain ⟨cs, hperm, hcs⟩ := h
      refine ⟨cs.map (·.player), ?_, fun R' h' => ⟨cs, hperm, ?_⟩⟩
      · rw [slots, List.forall₂_map_left_iff, List.forall₂_map_right_iff]
        exact hcs.imp fun _ _ h => h.2
      · rw [slots, List.forall₂_map_left_iff, List.forall₂_map_right_iff] at h'
        exact forall₂_and (hcs.imp fun _ _ h => h.1) h'
    | value predicate =>
      cases q <;> cases hkind
      rename_i other
      obtain ⟨comparator, operand⟩ := predicate
      obtain ⟨comparator', operand'⟩ := other
      obtain ⟨hcomparator, hoperand⟩ := h
      cases operand <;> cases operand'
      case constant.constant => exact ⟨[], .nil, fun _ _ => ⟨hcomparator, hoperand⟩⟩
      case var.var =>
        exact ⟨_, hone hoperand, fun R' h' => ⟨hcomparator, (List.forall₂_cons.1 h').1⟩⟩
      all_goals cases hoperand
    | neq v =>
      cases q <;> cases hkind
      exact ⟨_, hone h, fun R' h' => (List.forall₂_cons.1 h').1⟩

theorem Statement.Matches.exists_slots {s t : Statement} (h : s.Matches R t) :
    ∃ ws, List.Forall₂ R s.slots ws ∧
      ∀ R' : Variable → Variable → Prop, List.Forall₂ R' s.slots ws → s.Matches R' t :=
  Statement.exists_slots_of (fun _ _ _ hpq => hpq.exists_slots) h

theorem Statement.Matches.imp {s t : Statement} (h : s.Matches R t)
    (hR : ∀ v ∈ s.slots, ∀ w, R v w → R' v w) : s.Matches R' t := by
  obtain ⟨ws, hws, hread⟩ := h.exists_slots
  apply hread
  rw [List.forall₂_iff_zip] at hws ⊢
  exact ⟨hws.1, fun hvw => hR _ (List.of_mem_zip hvw).1 _ (hws.2 hvw)⟩

/-- A map can be changed at the variables that stand at one place only, so that these go to what stands
there in the other list. -/
theorem exists_map_of_forall₂ {vs ws : List Variable} {tied : Variable → Prop}
    {g : Variable → Variable} (h : List.Forall₂ (fun v w => tied v → g v = w) vs ws)
    (hfree : ∀ v, ¬ tied v → vs.count v ≤ 1) :
    ∃ f : Variable → Variable, (∀ v, v ∉ vs ∨ tied v → f v = g v) ∧
      List.Forall₂ (fun v w => f v = w) vs ws := by
  induction h with
  | nil => exact ⟨g, fun _ _ => rfl, .nil⟩
  | @cons v w vs ws hvw _ ih =>
    obtain ⟨f, hf, hrest⟩ := ih fun u hu => by
      have := hfree u hu
      rw [List.count_cons] at this
      omega
    by_cases hv : tied v
    · refine ⟨f, fun u hu => hf u ?_, .cons ((hf v (.inr hv)).trans (hvw hv)) hrest⟩
      exact hu.imp_left fun hu hmem => hu (List.mem_cons_of_mem _ hmem)
    · have hnew : v ∉ vs := by
        intro hmem
        have hcount := hfree v hv
        rw [List.count_cons_self] at hcount
        have := List.count_pos_iff.2 hmem
        omega
      refine ⟨Function.update f v w, fun u hu => ?_, .cons (Function.update_self ..) ?_⟩
      · have huv : u ≠ v := by
          rintro rfl
          exact hu.elim (fun hu => hu List.mem_cons_self) hv
        rw [Function.update_of_ne huv]
        exact hf u (hu.imp_left fun hu hmem => hu (List.mem_cons_of_mem _ hmem))
      · rw [List.forall₂_iff_zip] at hrest ⊢
        refine ⟨hrest.1, fun {u x} hux => ?_⟩
        have huv : u ≠ v := by
          rintro rfl
          exact hnew (List.of_mem_zip hux).1
        rw [Function.update_of_ne huv]
        exact hrest.2 hux

mutual

/-- No two properties have one shape, neither here nor in what is carried. -/
def Property.Diverse : Property → Prop
  | .has _ owned => owned.Diverse
  | .isa .. | .sub .. | .label _ | .id _ | .dataType _ | .relation _ | .value _ | .neq _ => True

/-- No two properties have one shape, neither here nor in what is carried. -/
def Statement.Diverse : Statement → Prop
  | ⟨_, _, properties⟩ =>
    properties.Pairwise (fun p q => (q == p) = false) ∧ Property.DiverseAll properties

def Property.DiverseAll : List Property → Prop
  | [] => True
  | p :: ps => p.Diverse ∧ Property.DiverseAll ps

end

theorem Statement.diverse_iff {s : Statement} :
    s.Diverse ↔ s.properties.Pairwise (fun p q => (q == p) = false) ∧
      ∀ p ∈ s.properties, p.Diverse := by
  have hall (ps : List Property) : Property.DiverseAll ps ↔ ∀ p ∈ ps, p.Diverse := by
    induction ps with
    | nil => simp [Property.DiverseAll]
    | cons p ps ih => rw [Property.DiverseAll, ih, List.forall_mem_cons]
  obtain ⟨_, _, properties⟩ := s
  rw [Diverse, hall]

theorem Statement.pairedUp_properties {s t : Statement} (h : (s == t) = true)
    (hs : s.properties.Pairwise fun p q => (q == p) = false) :
    PairedUp (fun p q => (p == q) = true) s.properties t.properties := by
  obtain ⟨-, -, hlength, hsub, -⟩ := Statement.beq_iff.1 h
  exact Distinct.exists_perm_of_length_le hs (Nat.le_of_eq hlength.symm) hsub

theorem Statement.matches_of_beq_of {s t : Statement} (h : (s == t) = true) (hs : s.Diverse)
    (hproperty : ∀ p ∈ s.properties, ∀ q, p.Diverse → (p == q) = true →
      p.Matches (fun v w => v.alike w = true) q) : s.Matches (fun v w => v.alike w = true) t := by
  obtain ⟨hvar, hpolarity, -⟩ := Statement.beq_iff.1 h
  obtain ⟨hpairwise, hdiverse⟩ := diverse_iff.1 hs
  obtain ⟨qs, hperm, hqs⟩ := pairedUp_properties h hpairwise
  refine matches_iff.2 ⟨hvar, hpolarity, qs, fun q => hperm.mem_iff, ?_⟩
  rw [List.forall₂_iff_zip] at hqs ⊢
  refine ⟨hqs.1, fun hpq => ?_⟩
  have hp := (List.of_mem_zip hpq).1
  exact hproperty _ hp _ (hdiverse _ hp) (hqs.2 hpq)

theorem Property.matches_of_beq {p q : Property} (h : (p == q) = true) (hdiverse : p.Diverse) :
    p.Matches (fun v w => v.alike w = true) q := by
  have hkind := kind_eq_of_beq h
  induction p using Property.induction generalizing q with
  | has type owned ih =>
    cases q <;> cases hkind
    obtain ⟨htype, howned⟩ := has_beq_has.1 h
    exact ⟨htype, Statement.matches_of_beq_of howned hdiverse fun p hp q hdiverse hpq =>
      ih p hp hpq hdiverse (kind_eq_of_beq hpq)⟩
  | other p hp =>
    cases p with
    | isa type direct =>
      cases q <;> cases hkind
      obtain ⟨htype, hdirect⟩ := isa_beq_isa.1 h
      obtain ⟨hvar, hlabel⟩ := TypeRef.beq_iff.1 htype
      exact ⟨Variable.alike_iff.2 hvar, hlabel, hdirect⟩
    | sub superType direct =>
      cases q <;> cases hkind
      obtain ⟨htype, hdirect⟩ := sub_beq_sub.1 h
      obtain ⟨hvar, hlabel⟩ := TypeRef.beq_iff.1 htype
      exact ⟨Variable.alike_iff.2 hvar, hlabel, hdirect⟩
    | label l =>
      cases q <;> cases hkind
      exact label_beq_label.1 h
    | id number =>
      cases q <;> cases hkind
      exact id_beq_id.1 h
    | dataType type =>
      cases q <;> cases hkind
      exact dataType_beq_dataType.1 h
    | has => exact absurd rfl hp
    | relation players =>
      cases q <;> cases hkind
      rename_i others
      obtain ⟨cs, hperm, hcs⟩ := PairedUp.map_iff.1 (PairedUp.eq_iff.2 (relation_beq_relation.1 h))
      refine ⟨cs, hperm, hcs.imp fun a c hac => ?_⟩
      obtain ⟨hrole, hname⟩ := Prod.mk.inj hac
      exact ⟨hrole, Variable.alike_iff.2 hname⟩
    | value predicate =>
      cases q <;> cases hkind
      rename_i other
      obtain ⟨comparator, operand⟩ := predicate
      obtain ⟨comparator', operand'⟩ := other
      obtain ⟨hcomparator, hoperand⟩ := value_beq_value.1 h
      cases operand <;> cases operand'
      case constant.constant => exact ⟨hcomparator, of_decide_eq_true hoperand⟩
      case var.var => exact ⟨hcomparator, hoperand⟩
      all_goals cases hoperand
    | neq v =>
      cases q <;> cases hkind
      exact Variable.alike_iff.2 (neq_beq_neq.1 h)

/-- A statement in which no two properties have one shape matches each of its shape. -/
theorem Statement.matches_of_beq {s t : Statement} (h : (s == t) = true) (hs : s.Diverse) :
    s.Matches (fun v w => v.alike w = true) t :=
  matches_of_beq_of h hs fun _ _ _ hdiverse hpq => Property.matches_of_beq hpq hdiverse

variable {g : Graph U} {a : Variable → U} {f : Variable → Variable}

theorem Statement.Matches.holds_of {s t : Statement} (h : s.Matches (fun v w => f v = w) t)
    (hproperty : ∀ p ∈ s.properties, ∀ q, p.Matches (fun v w => f v = w) q → ∀ concept,
      q.HoldsWithin g a concept → p.HoldsWithin g (a ∘ f) concept)
    (ht : t.Holds g a) : s.Holds g (a ∘ f) := by
  obtain ⟨hvar, -, qs, hqs, hall⟩ := matches_iff.1 h
  rw [holds_iff] at ht ⊢
  intro p hp
  obtain ⟨q, hq, hpq⟩ := exists_of_forall₂ hall.flip hp
  rw [Function.comp_apply, hvar]
  exact hproperty p hp q hpq _ (ht q ((hqs q).1 hq))

theorem Property.Matches.holdsWithin {p q : Property} (h : p.Matches (fun v w => f v = w) q)
    {concept : U} (hq : q.HoldsWithin g a concept) : p.HoldsWithin g (a ∘ f) concept := by
  have hkind := h.kind_eq
  have hlabels {type type' : TypeRef} (hvar : f type.var = type'.var)
      (hlabel : type.label = type'.label)
      (h : ∀ s ∈ type'.labelStatement?.toList, s.Holds g a) :
      ∀ s ∈ type.labelStatement?.toList, s.Holds g (a ∘ f) := by
    rw [TypeRef.holds_labelStatement?] at h ⊢
    rwa [hlabel, Function.comp_apply, hvar]
  induction p using Property.induction generalizing q concept with
  | has type owned ih =>
    cases q <;> cases hkind
    obtain ⟨hholds, hcarried⟩ := hq
    obtain ⟨-, howned⟩ := h
    constructor
    · change g.has concept (a (f owned.var))
      rw [(Statement.matches_iff.1 howned).1]
      exact hholds
    · simp only [carried, List.mem_singleton, forall_eq] at hcarried ⊢
      exact howned.holds_of (fun p hp q hpq concept hq => ih p hp hpq hq hpq.kind_eq) hcarried
  | other p hp =>
    obtain ⟨hholds, hcarried⟩ := hq
    cases p with
    | isa type direct =>
      cases q <;> cases hkind
      obtain ⟨hvar, hlabel, rfl⟩ := h
      refine ⟨?_, hlabels hvar hlabel hcarried⟩
      simpa only [Holds, Function.comp_apply, hvar] using hholds
    | sub superType direct =>
      cases q <;> cases hkind
      obtain ⟨hvar, hlabel, rfl⟩ := h
      refine ⟨?_, hlabels hvar hlabel hcarried⟩
      simpa only [Holds, Function.comp_apply, hvar] using hholds
    | label l =>
      cases q <;> cases hkind
      obtain rfl : l = _ := h
      exact ⟨hholds, List.forall_mem_nil _⟩
    | id number =>
      cases q <;> cases hkind
      obtain rfl : number = _ := h
      exact ⟨hholds, List.forall_mem_nil _⟩
    | dataType type =>
      cases q <;> cases hkind
      obtain rfl : type = _ := h
      exact ⟨hholds, List.forall_mem_nil _⟩
    | has => exact absurd rfl hp
    | relation players =>
      cases q <;> cases hkind
      obtain ⟨cs, hperm, hcs⟩ := h
      refine ⟨fun rp hrp => ?_, List.forall_mem_nil _⟩
      obtain ⟨c, hc, hrole, hplayer⟩ := exists_of_forall₂ hcs.flip hrp
      rw [hrole, Function.comp_apply, hplayer]
      exact hholds c (hperm.mem_iff.1 hc)
    | value predicate =>
      cases q <;> cases hkind
      rename_i other
      obtain ⟨comparator, operand⟩ := predicate
      obtain ⟨comparator', operand'⟩ := other
      obtain ⟨rfl, hoperand⟩ := h
      refine ⟨?_, List.forall_mem_nil _⟩
      cases operand <;> cases operand'
      case constant.constant =>
        obtain rfl : _ = _ := hoperand
        exact hholds
      case var.var v w =>
        obtain rfl : f v = w := hoperand
        exact hholds
      all_goals cases hoperand
    | neq v =>
      cases q <;> cases hkind
      obtain rfl : f v = _ := h
      exact ⟨hholds, List.forall_mem_nil _⟩

/-- A statement that becomes another one by a renaming holds where the other does, of what the renamed
variables stand for. -/
theorem Statement.Matches.holds {s t : Statement} (h : s.Matches (fun v w => f v = w) t)
    (ht : t.Holds g a) : s.Holds g (a ∘ f) :=
  h.holds_of (fun _ _ _ hpq _ hq => hpq.holdsWithin hq) ht

end GraphQuery
