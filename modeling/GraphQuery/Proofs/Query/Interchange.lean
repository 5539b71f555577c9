import GraphQuery.Proofs.Atom.Folding
import GraphQuery.Proofs.Query.Equivalence
import GraphQuery.Proofs.Statement.Alignment

/-!
# Queries of equal conjunctions

A disjunction keeps the first of equal conjunctions, and equality sees neither which slot a
generated variable fills, nor the order of properties, nor which of equal properties recurs. Queries
see all of this. They are equivalent where a renaming of variables turns the statements of the one
conjunction into those of the other, and where these peculiarities do not occur there is such a
renaming.
-/

namespace GraphQuery

variable {f : Variable → Variable} {s t : Statement} {p q : Property} {c d : Conjunction}

/-- What a conjunction asserts, with the statements that are carried. -/
def Conjunction.asserted (c : Conjunction) : List Statement := c.positive.flatMap (·.withInner)

/-- The slots of what a conjunction asserts. -/
def Conjunction.slots (c : Conjunction) : List Variable := c.positive.flatMap (·.slots)

/-- What an atom says becomes what another one says when variables are renamed. -/
def AtomKind.RenamesTo (f : Variable → Variable) (k l : AtomKind) : Prop :=
  k.Corresponds .alpha (fun v w => f v = w) (RolePlayer.RenameTo f) l

/-- That a renaming turns a property into another, but for the type that a relation takes in. -/
def Property.TurnsInto (f : Variable → Variable) (p q : Property) : Prop :=
  ∀ s t : Statement, (p.atomKind s).untyped.RenamesTo f (q.atomKind t).untyped

/-- That a renaming turns a statement into another, apart from what it carries: its variable into
that of the other, and its properties, relations with the types that they take in, into those of the
other in some order. The variable of a type with a label may be anything. -/
structure Statement.TurnsInto (f : Variable → Variable) (s t : Statement) : Prop where
  var : f s.var = t.var
  properties : PairedUp (fun p q => (p.atomKind s).RenamesTo f (q.atomKind t)) s.properties
    t.properties

/-- The type that a relation of the statement takes in. -/
def Statement.takenIn? (s : Statement) : Option TypeRef := (s.property? .isa).bind Property.isaType?

theorem Property.kind_eq_of_renamesTo (h : (p.atomKind s).RenamesTo f (q.atomKind t)) :
    p.kind = q.kind := by
  cases p <;> cases q <;> first
    | rfl
    | cases h; done
    | cases h with
      | identity h => cases h

namespace Statement

theorem TurnsInto.hasKind_eq (h : s.TurnsInto f t) (kind : PropertyKind) :
    s.hasKind kind = t.hasKind kind := by
  have hback := h.properties.symm (s := fun q p => p.kind = q.kind)
    fun _ _ => Property.kind_eq_of_renamesTo
  rw [Bool.eq_iff_iff, hasKind, hasKind, List.any_eq_true, List.any_eq_true]
  constructor
  · rintro ⟨p, hp, hkind⟩
    obtain ⟨q, hq, hpq⟩ := h.properties.exists_right hp
    exact ⟨q, hq, by rwa [← Property.kind_eq_of_renamesTo hpq]⟩
  · rintro ⟨q, hq, hkind⟩
    obtain ⟨p, hp, hpq⟩ := hback.exists_right hq
    exact ⟨p, hp, by rwa [hpq]⟩

theorem TurnsInto.givesAtom_eq (h : s.TurnsInto f t) (hkind : p.kind = q.kind) :
    p.givesAtom s = q.givesAtom t := by
  have hrelation := h.hasKind_eq .relation
  cases p <;> cases q <;> first
    | cases hkind; done
    | rfl
    | exact congrArg (!·) hrelation

/-- The atoms of a statement that is turned into another are renamed to those of the other. -/
theorem TurnsInto.pairedUp_atoms (h : s.TurnsInto f t) (i j : QueryId) :
    PairedUp (Atom.RenamesTo .alpha f) (s.properties.filterMap (·.atom? s i))
      (t.properties.filterMap (·.atom? t j)) := by
  apply PairedUp.filterMap
  apply h.properties.mono
  intro p _ q _ hpq
  rw [Property.atom?, Property.atom?, h.givesAtom_eq (Property.kind_eq_of_renamesTo hpq)]
  split
  · exact .some ⟨h.var, hpq⟩
  · exact .none

end Statement

theorem Query.renamesTo_of_turnsInto (h : PairedUp (Statement.TurnsInto f) c.asserted d.asserted)
    (i j : QueryId) : (ofConjunction i c).RenamesTo .alpha f (ofConjunction j d) := by
  have hatoms := (h.mono fun _ _ _ _ hst => hst.pairedUp_atoms i j).flatMap
  rw [Conjunction.asserted, Conjunction.asserted, List.flatMap_assoc, List.flatMap_assoc] at hatoms
  have hcopies : PairedUp (Atom.RenamesTo .alpha f)
      ((c.positive.flatMap (·.atoms i)).map (·.copy i))
      ((d.positive.flatMap (·.atoms j)).map (·.copy j)) :=
    PairedUp.map_iff.2 (hatoms.mono fun _ _ _ _ hab => ⟨hab.1, hab.2⟩)
  exact hcopies

/-- The statement of the attribute that a property gives. -/
def Property.owned? : Property → Option Statement
  | .has _ owned => some owned
  | _ => none

/-- That the types which relations take in are equal, and so are the predicates which equal
properties take in for the values of attributes. -/
def Statement.TakesInLike (s t : Statement) : Prop :=
  (s.hasKind .relation = true → s.LeadsLike .isa t) ∧
    ∀ p ∈ s.properties, ∀ q ∈ t.properties, (p == q) = true →
      ∀ a ∈ p.owned?, ∀ b ∈ q.owned?, a.LeadsLike .value b

instance (s t : Statement) : Decidable (s.TakesInLike t) := inferInstanceAs (Decidable (_ ∧ _))

/-- That equal statements of two lists take in equal types and predicates. -/
def Statement.AllTakeInLike (ss ts : List Statement) : Prop :=
  ∀ s ∈ ss, ∀ t ∈ ts, (s == t) = true → s.TakesInLike t

instance (ss ts : List Statement) : Decidable (Statement.AllTakeInLike ss ts) :=
  inferInstanceAs (Decidable (∀ s ∈ ss, _))

theorem Statement.AllTakeInLike.subset {ss ss' ts ts' : List Statement} (h : AllTakeInLike ss ts)
    (hss : ss' ⊆ ss) (hts : ts' ⊆ ts) : AllTakeInLike ss' ts' :=
  fun s hs t ht => h s (hss hs) t (hts ht)

theorem Property.inner_subset (hp : p ∈ s.properties) : p.inner ⊆ s.withInner := by
  intro u hu
  rw [Statement.withInner, s.inner_eq]
  exact List.mem_cons_of_mem _ (List.mem_flatMap.2 ⟨p, hp, hu⟩)

/-- That a property turns into another, together with what it carries. -/
structure Property.TurnsWhollyInto (f : Variable → Variable) (p q : Property) : Prop where
  own : p.TurnsInto f q
  inner : PairedUp (Statement.TurnsInto f) p.inner q.inner

/-- That a statement turns into another, together with what it carries and with the predicate that
an owner takes in. -/
structure Statement.TurnsWhollyInto (f : Variable → Variable) (s t : Statement) : Prop where
  var : f s.var = t.var
  withInner : PairedUp (TurnsInto f) s.withInner t.withInner
  predicate : s.LeadsLike .value t →
    Option.Rel (ValuePredicate.Corresponds .alpha fun v w => f v = w) s.predicate? t.predicate?

namespace Statement

/-- What is read off the first properties of a kind is renamed with them. -/
theorem rel_bind_property? {α : Type} {r : α → α → Prop} {g : Property → Option α}
    {kind : PropertyKind}
    (h : Option.Rel (Property.TurnsInto f) (s.property? kind) (t.property? kind))
    (hg : ∀ p q, p.kind = kind → q.kind = kind → p.TurnsInto f q → Option.Rel r (g p) (g q)) :
    Option.Rel r ((s.property? kind).bind g) ((t.property? kind).bind g) := by
  generalize hp : s.property? kind = p? at h ⊢
  generalize hq : t.property? kind = q? at h ⊢
  cases h with
  | none => exact .none
  | some hpq =>
    exact hg _ _ (mem_properties_of_property? hp).2 (mem_properties_of_property? hq).2 hpq

theorem rel_takenIn? (h : Option.Rel (Property.TurnsInto f) (s.property? .isa) (t.property? .isa)) :
    Option.Rel (TypeRef.Corresponds fun v w => f v = w) s.takenIn? t.takenIn? := by
  apply rel_bind_property? h
  intro p q hp hq hpq
  cases p <;> cases hp
  cases q <;> cases hq
  cases hpq s t with
  | isa h => exact .some h

theorem rel_predicate?
    (h : Option.Rel (Property.TurnsInto f) (s.property? .value) (t.property? .value)) :
    Option.Rel (ValuePredicate.Corresponds .alpha fun v w => f v = w) s.predicate?
      t.predicate? := by
  rw [predicate?_eq, predicate?_eq]
  apply rel_bind_property? h
  intro p q hp hq hpq
  cases p <;> cases hp
  cases q <;> cases hq
  cases hpq s t with
  | value h => exact .some h

theorem atomKind_relation (s : Statement) (players : List RolePlayer) :
    (Property.relation players).atomKind s =
      .relation (s.takenIn?.map (·.var)) (s.takenIn?.bind (·.label)) players := rfl

/-- Properties that turn into each other do so with the types that they take in. -/
theorem renamesTo_of_turnsInto (h : p.TurnsInto f q)
    (htype : p.kind = .relation → Option.Rel (TypeRef.Corresponds fun v w => f v = w)
      s.takenIn? t.takenIn?) : (p.atomKind s).RenamesTo f (q.atomKind t) := by
  have hkinds := h s t
  cases p with
  | relation players =>
    cases q with
    | relation players' =>
      cases hkinds with
      | relation _ hplayers =>
        have htypes := htype rfl
        rw [atomKind_relation, atomKind_relation]
        generalize s.takenIn? = a? at htypes ⊢
        generalize t.takenIn? = b? at htypes ⊢
        cases htypes with
        | none => exact .relation (fun _ => .none) hplayers
        | @some a b htype =>
          change AtomKind.RenamesTo f (.relation (some a.var) a.label players)
            (.relation (some b.var) b.label players')
          rw [← htype.1]
          exact .relation (fun hnone => .some (htype.2 hnone)) hplayers
    | _ => cases hkinds
  | _ => cases q <;> first
    | exact hkinds
    | cases hkinds

/-- A statement turns into an equal one, and so does what it carries, if its properties do. -/
theorem aligned_of_beq_of (h : (s == t) = true) (hs : s.Diverse)
    (hlike : AllTakeInLike s.withInner t.withInner)
    (hproperty : ∀ p ∈ s.properties, ∀ q ∈ t.properties, (p == q) = true →
      Aligned p.slots q.slots fun f => p.TurnsWhollyInto f q) :
    Aligned s.slots t.slots fun f => s.TurnsWhollyInto f t := by
  have hdistinct := (diverse_iff.1 hs).1
  have hvar := (Statement.beq_iff.1 h).1
  have hlist : Aligned (s.properties.flatMap Property.slots) (t.properties.flatMap Property.slots)
      fun f => PairedUp (fun p q => (p == q) = true ∧ p.TurnsWhollyInto f q) s.properties
        t.properties := by
    apply Aligned.flatMap
    apply (pairedUp_properties h hdistinct).mono
    intro p hp q hq hpq
    exact (hproperty p hp q hq hpq).imp fun f hf => ⟨hpq, hf⟩
  rw [slots_eq, slots_eq]
  have hfirst : Aligned [s.var] [t.var] fun f => f s.var = t.var := .singleton hvar fun _ hf => hf
  refine (hfirst.append hlist).imp ?_
  rintro f ⟨hf, hpairs⟩
  have hlead {kind : PropertyKind} (hkind : s.LeadsLike kind t) :
      Option.Rel (Property.TurnsInto f) (s.property? kind) (t.property? kind) :=
    rel_property? h hdistinct hkind (hpairs.mono fun _ _ _ _ hpq => ⟨hpq.1, hpq.2.own⟩)
  have hself : s.TurnsInto f t := by
    refine ⟨hf, hpairs.mono fun p hp q _ hpq => renamesTo_of_turnsInto hpq.2.own fun hkind => ?_⟩
    have hrelation : s.hasKind .relation = true := List.any_eq_true.2 ⟨p, hp, decide_eq_true hkind⟩
    exact rel_takenIn? (hlead ((hlike s List.mem_cons_self t List.mem_cons_self h).1 hrelation))
  have hinner : PairedUp (TurnsInto f) s.inner t.inner := by
    rw [inner_eq, inner_eq]
    exact (hpairs.mono fun _ _ _ _ hpq => hpq.2.inner).flatMap
  exact ⟨hf, (PairedUp.singleton hself).append hinner, fun hvalue => rel_predicate? (hlead hvalue)⟩

end Statement

theorem TypeRef.pairedUp_labelStatement? {a b : TypeRef} (hlabel : a.label = b.label)
    (hvar : f a.var = b.var) :
    PairedUp (Statement.TurnsInto f) a.labelStatement?.toList b.labelStatement?.toList := by
  rw [labelStatement?, labelStatement?, ← hlabel]
  cases a.label with
  | none => exact .nil
  | some l => exact .singleton ⟨hvar, .singleton (.identity .type)⟩

/-- A property turns into an equal one, whatever alike variables stand at its places, if what it
takes in is equal. -/
theorem Property.aligned_of_beq (h : (p == q) = true) (hp : p.Diverse)
    (hlike : Statement.AllTakeInLike p.inner q.inner)
    (hvalue : ∀ a ∈ p.owned?, ∀ b ∈ q.owned?, a.LeadsLike .value b) :
    Aligned p.slots q.slots fun f => p.TurnsWhollyInto f q := by
  have hkind := kind_eq_of_beq h
  induction p using Property.induction generalizing q with
  | has l a ih =>
    cases q <;> cases hkind
    rename_i l' b
    obtain ⟨rfl, hab⟩ := has_beq_has.1 h
    have haligned := Statement.aligned_of_beq_of hab hp hlike fun p hpa q hqb hpq => by
      refine ih p hpa hpq ((Statement.diverse_iff.1 hp).2 p hpa)
        (hlike.subset (inner_subset hpa) (inner_subset hqb)) ?_ (kind_eq_of_beq hpq)
      exact (hlike a List.mem_cons_self b List.mem_cons_self hab).2 p hpa q hqb hpq
    refine haligned.imp fun f hf => ⟨fun s t => ?_, hf.withInner⟩
    exact .resource hf.var (hf.predicate (hvalue a rfl b rfl))
  | other p hnot =>
    cases p with
    | isa type direct =>
      cases q <;> cases hkind
      obtain ⟨htype, rfl⟩ := isa_beq_isa.1 h
      obtain ⟨hvar, hlabel⟩ := TypeRef.beq_iff.1 htype
      refine .singleton (Variable.alike_iff.2 hvar) fun f hf => ⟨fun s t => ?_, ?_⟩
      · exact .isa ⟨hlabel, fun _ => hf⟩
      · exact TypeRef.pairedUp_labelStatement? hlabel hf
    | sub superType direct =>
      cases q <;> cases hkind
      obtain ⟨htype, rfl⟩ := sub_beq_sub.1 h
      obtain ⟨hvar, hlabel⟩ := TypeRef.beq_iff.1 htype
      refine .singleton (Variable.alike_iff.2 hvar) fun f hf => ⟨fun s t => ?_, ?_⟩
      · exact .sub ⟨hlabel, fun _ => hf⟩
      · exact TypeRef.pairedUp_labelStatement? hlabel hf
    | label l =>
      cases q <;> cases hkind
      obtain rfl := label_beq_label.1 h
      exact .nil fun f => ⟨fun s t => .identity .type, .nil⟩
    | id number =>
      cases q <;> cases hkind
      obtain rfl := id_beq_id.1 h
      exact .nil fun f => ⟨fun s t => .identity (.concept fun _ => rfl), .nil⟩
    | dataType type =>
      cases q <;> cases hkind
      obtain rfl := dataType_beq_dataType.1 h
      exact .nil fun f => ⟨fun s t => .dataType, .nil⟩
    | has => exact absurd rfl hnot
    | relation players =>
      cases q <;> cases hkind
      rename_i others
      obtain ⟨cs, hperm, hcs⟩ := PairedUp.map_iff.1 (PairedUp.eq_iff.2 (relation_beq_relation.1 h))
      refine ⟨cs.map (·.player), hperm.map _, ?_, fun f hf => ⟨fun s t => ?_, .nil⟩⟩
      · rw [slots, List.forall₂_map_left_iff, List.forall₂_map_right_iff]
        exact hcs.imp fun a c hac => Variable.alike_iff.2 (Prod.mk.inj hac).2
      · rw [slots, List.forall₂_map_left_iff, List.forall₂_map_right_iff] at hf
        refine .relation (fun _ => .none) ?_
        have hmap : players.map (RolePlayer.rename f) = cs := by
          rw [← List.forall₂_eq_eq_eq, List.forall₂_map_left_iff]
          refine (forall₂_and hcs hf).imp fun a c hac => ?_
          rw [RolePlayer.rename, hac.2, (Prod.mk.inj hac.1).1]
        rw [RolePlayer.RenameTo, hmap]
        exact hperm
    | value predicate =>
      cases q <;> cases hkind
      rename_i other
      obtain ⟨comparator, operand⟩ := predicate
      obtain ⟨comparator', operand'⟩ := other
      obtain ⟨rfl, hoperand⟩ := value_beq_value.1 h
      cases operand <;> cases operand'
      case constant.constant =>
        have hconstant := of_decide_eq_true hoperand
        exact .nil fun f => ⟨fun s t => .value ⟨rfl, .constant fun _ => hconstant⟩, .nil⟩
      case var.var =>
        exact .singleton hoperand fun f hf => ⟨fun s t => .value ⟨rfl, .var hf⟩, .nil⟩
      all_goals cases hoperand
    | neq v =>
      cases q <;> cases hkind
      exact .singleton (Variable.alike_iff.2 (neq_beq_neq.1 h)) fun f hf =>
        ⟨fun s t => .neq hf, .nil⟩

theorem Statement.aligned_of_beq (h : (s == t) = true) (hs : s.Diverse)
    (hlike : AllTakeInLike s.withInner t.withInner) :
    Aligned s.slots t.slots fun f => s.TurnsWhollyInto f t :=
  aligned_of_beq_of h hs hlike fun p hp q hq hpq =>
    Property.aligned_of_beq hpq ((diverse_iff.1 hs).2 p hp)
      (hlike.subset (Property.inner_subset hp) (Property.inner_subset hq))
      ((hlike s List.mem_cons_self t List.mem_cons_self h).2 p hp q hq hpq)

namespace Conjunction

theorem pairedUp_positive (h : (c == d) = true) :
    PairedUp (fun s t => (s == t) = true) c.positive d.positive := by
  have hpairs : PairedUp (fun s t => (s == t) = true) c.toList d.toList :=
    Distinct.exists_perm_of_beq h
  apply hpairs.filter
  intro s t hst
  rw [Statement.isNegative_eq_of_beq hst]

theorem withInner_subset (hs : s ∈ c.positive) : s.withInner ⊆ c.asserted :=
  fun _ hu => List.mem_flatMap.2 ⟨s, hs, hu⟩

theorem aligned_of_beq (h : (c == d) = true) (hc : ∀ s ∈ c.positive, s.Diverse)
    (hlike : Statement.AllTakeInLike c.asserted d.asserted) :
    Aligned c.slots d.slots fun f => PairedUp (Statement.TurnsInto f) c.asserted d.asserted := by
  have hpairs : PairedUp (fun s t => Aligned s.slots t.slots fun f => s.TurnsWhollyInto f t)
      c.positive d.positive := by
    apply (pairedUp_positive h).mono
    intro s hs t ht hst
    exact Statement.aligned_of_beq hst (hc s hs)
      (hlike.subset (withInner_subset hs) (withInner_subset ht))
  exact (Aligned.flatMap hpairs).imp fun f hf => (hf.mono fun _ _ _ _ hst => hst.withInner).flatMap

/-- Equal conjunctions make equivalent queries if a renaming turns what the one asserts into what
the other asserts. Where no two properties of one statement have one shape, and equal statements
take in equal types and predicates, their variables can be put side by side, alike ones beside each
other, such that every one-to-one map between them is such a renaming. There is one if no slot
stands at two places of either conjunction. -/
theorem query_equivalent_of_beq (h : (c == d) = true) (i j : QueryId) :
    (∀ f : Variable → Variable, Function.Injective f →
      PairedUp (Statement.TurnsInto f) c.asserted d.asserted →
        (Query.ofConjunction i c).equivalent .alpha (.ofConjunction j d) = true) ∧
    ((∀ s ∈ c.positive, s.Diverse) → Statement.AllTakeInLike c.asserted d.asserted →
      (Aligned c.slots d.slots fun f => Function.Injective f →
        (Query.ofConjunction i c).equivalent .alpha (.ofConjunction j d) = true) ∧
      ((unnamed c.slots).Nodup → (unnamed d.slots).Nodup →
        (Query.ofConjunction i c).equivalent .alpha (.ofConjunction j d) = true)) := by
  have hrenamed : ∀ f : Variable → Variable, Function.Injective f →
      PairedUp (Statement.TurnsInto f) c.asserted d.asserted →
        (Query.ofConjunction i c).equivalent .alpha (.ofConjunction j d) = true :=
    fun f hf hturns => (Query.renamesTo_of_turnsInto hturns i j).equivalent hf
  refine ⟨hrenamed, fun hdiverse hlike => ?_⟩
  have haligned := aligned_of_beq h hdiverse hlike
  refine ⟨haligned.imp fun f hturns hf => hrenamed f hf hturns, fun hslots hslots' => ?_⟩
  obtain ⟨σ, hσ⟩ := haligned.exists_perm hslots hslots'
  exact hrenamed σ σ.injective hσ

/-- Two people unlike a third whom a slot stands for, in two orders; and a marriage of named persons
in two orders, its slots filled otherwise. -/
theorem query_equivalent_of_beq_people :
    let unlike (v : String) (n : UInt64) : Statement := ⟨.named v, .positive, [.neq (.generated n)]⟩
    let c : Conjunction := .ofList [unlike "x" 0, unlike "y" 0]
    let d : Conjunction := .ofList [unlike "y" 1, unlike "x" 1]
    let σ : Equiv.Perm Variable := Equiv.swap (.generated 0) (.generated 1)
    let couple (m : UInt64) : List Property := [.isa (.labelled (.generated m) ⟨"marriage"⟩) false,
      .relation [⟨some ⟨"wife"⟩, .named "x"⟩, ⟨some ⟨"husband"⟩, .named "y"⟩]]
    let named (n : UInt64) : Statement := ⟨.named "x", .positive, [.has ⟨"name"⟩
      ⟨.generated n, .positive, [.value ⟨.equal, .constant (.string "Ann")⟩]⟩]⟩
    let c' : Conjunction := .ofList [⟨.generated 0, .positive, couple 1⟩, named 2]
    let d' : Conjunction := .ofList [named 0, ⟨.generated 1, .positive, (couple 2).reverse⟩]
    (c == d) = true ∧ Function.Injective σ ∧
      PairedUp (Statement.TurnsInto σ) c.asserted d.asserted ∧
      (Query.ofConjunction ⟨0⟩ c).equivalent .alpha (.ofConjunction ⟨1⟩ d) = true ∧
      (c' == d') = true ∧ (∀ s ∈ c'.positive, s.Diverse) ∧
      Statement.AllTakeInLike c'.asserted d'.asserted ∧
      (Aligned c'.slots d'.slots fun f => Function.Injective f →
        (Query.ofConjunction ⟨0⟩ c').equivalent .alpha (.ofConjunction ⟨1⟩ d') = true) ∧
      (unnamed c'.slots).Nodup ∧ (unnamed d'.slots).Nodup ∧
      (Query.ofConjunction ⟨0⟩ c').equivalent .alpha (.ofConjunction ⟨1⟩ d') = true := by
  intro unlike c d σ couple named c' d'
  have h : (c == d) = true := by decide
  have hσ : PairedUp (Statement.TurnsInto σ) c.asserted d.asserted := by
    have hturns (v : String) : (unlike v 0).TurnsInto σ (unlike v 1) :=
      ⟨rfl, .singleton (.neq (Equiv.swap_apply_left _ _))⟩
    exact ⟨[unlike "x" 1, unlike "y" 1], .swap _ _ _, .cons (hturns "x") (.cons (hturns "y") .nil)⟩
  have h' : (c' == d') = true := by decide
  have hslots : (unnamed c'.slots).Nodup := by decide
  have hslots' : (unnamed d'.slots).Nodup := by decide
  have hdiverse : ∀ s ∈ c'.positive, s.Diverse := by
    have hpositive : c'.positive = [⟨.generated 0, .positive, couple 1⟩, named 2] := rfl
    rw [hpositive, List.forall_mem_cons, List.forall_mem_singleton]
    have hcouple : (couple 1).Pairwise fun p q => (q == p) = false := by decide
    refine ⟨Statement.diverse_iff.2 ⟨hcouple, by simp [couple, Property.Diverse]⟩, ?_⟩
    simp [Statement.diverse_iff, named, Property.Diverse]
  have hlike : Statement.AllTakeInLike c'.asserted d'.asserted := by decide
  obtain ⟨haligned, hequivalent⟩ := (query_equivalent_of_beq h' ⟨0⟩ ⟨1⟩).2 hdiverse hlike
  exact ⟨h, σ.injective, hσ, (query_equivalent_of_beq h _ _).1 σ σ.injective hσ, h', hdiverse,
    hlike, haligned, hslots, hslots', hequivalent hslots hslots'⟩

/-- Four pairs of equal conjunctions, of which a disjunction keeps only one, with queries that are
not equivalent: one slot or two; the one or the other of two properties twice; two types of a
relation and two predicates for the value of an attribute, in either order. -/
theorem not_query_equivalent_of_beq :
    let differ (ss ts : List Statement) : Prop :=
      (∀ s ∈ ss ++ ts, s.polarity = .positive) ∧
        ((Distinct.ofList ss : Conjunction) == .ofList ts) = true ∧
        (Pattern.disjunction [.conjunction (ss.map .statement),
          .conjunction (ts.map .statement)]).normalForm.size = 1 ∧
        (Query.ofConjunction ⟨0⟩ (.ofList ss)).equivalent .alpha
          (.ofConjunction ⟨1⟩ (.ofList ts)) = false
    let unlike (v : String) (n : UInt64) : Statement := ⟨.named v, .positive, [.neq (.generated n)]⟩
    let person (ps : List Property) : Statement := ⟨.named "x", .positive, ps⟩
    let neq : Property := .neq (.named "y")
    let label : Property := .label ⟨"person"⟩
    let isa (n : UInt64) (name : String) : Property := .isa (.labelled (.generated n) ⟨name⟩) false
    let relation (isas : List Property) : Statement :=
      ⟨.named "r", .positive, .relation [⟨none, .named "x"⟩] :: isas⟩
    let aged (predicates : List (Comparator × Int)) : Statement := ⟨.named "x", .positive,
      [.has ⟨"age"⟩ ⟨.generated 0, .positive,
        predicates.map fun p => .value ⟨p.1, .constant (.long p.2)⟩⟩]⟩
    differ [unlike "x" 0, unlike "y" 0] [unlike "x" 0, unlike "y" 1] ∧
      differ [person [neq, neq, label]] [person [neq, label, label]] ∧
      differ [relation [isa 0 "marriage", isa 1 "contract"]]
        [relation [isa 1 "contract", isa 0 "marriage"]] ∧
      differ [aged [(.greater, 3), (.less, 5)]] [aged [(.less, 5), (.greater, 3)]] := by
  intro differ unlike person neq label isa relation aged
  refine ⟨⟨?_, ?_, ?_, ?_⟩, ⟨?_, ?_, ?_, ?_⟩, ⟨?_, ?_, ?_, ?_⟩, ?_, ?_, ?_, ?_⟩
  all_goals decide

end Conjunction

end GraphQuery
