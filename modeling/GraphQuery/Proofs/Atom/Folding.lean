import GraphQuery.Proofs.Atom.Demands

/-!
# Types that relations take in

The atom of a relation takes in the type that its statement gives, and the type gives no atom of its
own. It can be had back from the atom: where statements that give a type to a relation give just one,
renamings of their atoms are renamings of the atoms of their properties by themselves.
-/

namespace GraphQuery

variable {f : Variable → Variable} {s t : Statement} {i j : QueryId}

/-- That the statement gives a type to a relation. -/
def Statement.typesRelation (s : Statement) : Bool := s.hasKind .relation && s.hasKind .isa

/-- A statement with a relation gives no two types. -/
def Statement.TypesAtMostOnce (s : Statement) : Prop :=
  s.hasKind .relation = true → s.properties.countP (·.kind = .isa) ≤ 1

/-- Statements that give types to relations, among one and those that it carries, are about different
variables. -/
def Statement.TypesRelationsOnce (s : Statement) : Prop :=
  ((s.withInner.filter typesRelation).map (·.var)).Nodup

instance (s : Statement) : Decidable s.TypesAtMostOnce := inferInstanceAs (Decidable (_ → _))

instance (s : Statement) : Decidable s.TypesRelationsOnce :=
  inferInstanceAs (Decidable (List.Nodup _))

/-- The atom is that of a relation with a type, which is the very type of the relation if `direct`. -/
def Statement.TakesIn (s : Statement) (a : Atom) (direct : Bool) : Prop :=
  ∃ u ∈ s.withInner, ∃ players type parent, .relation players ∈ u.properties ∧
    .isa type direct ∈ u.properties ∧ a ∈ (Property.relation players).atom? u parent

namespace Statement

theorem eq_isa_of_mem {type : TypeRef} {direct : Bool} (h : s.TypesAtMostOnce)
    (hrelation : s.hasKind .relation = true) (htype : .isa type direct ∈ s.properties)
    {p : Property} (hp : p ∈ s.properties) (hkind : p.kind = .isa) : p = .isa type direct := by
  have hcount := h hrelation
  rw [List.countP_eq_length_filter] at hcount
  have hmem {q : Property} (hq : q ∈ s.properties) (hkind : q.kind = .isa) :
      q ∈ s.properties.filter (·.kind = .isa) := List.mem_filter.2 ⟨hq, decide_eq_true hkind⟩
  generalize s.properties.filter (·.kind = .isa) = isas at hcount hmem
  match isas, hcount with
  | [], _ => cases hmem htype rfl
  | [q], _ => rw [List.mem_singleton.1 (hmem hp hkind), List.mem_singleton.1 (hmem htype rfl)]

theorem property?_isa (h : s.TypesAtMostOnce) (hrelation : s.hasKind .relation = true)
    {type : TypeRef} {direct : Bool} (htype : .isa type direct ∈ s.properties) :
    s.property? .isa = some (.isa type direct) := by
  have hsome : (s.property? .isa).isSome = true := List.find?_isSome.2 ⟨_, htype, rfl⟩
  obtain ⟨q, hq⟩ := Option.isSome_iff_exists.1 hsome
  have hkind : q.kind = .isa :=
    of_decide_eq_true (List.find?_some (p := fun p : Property => decide (p.kind = .isa)) hq)
  rw [hq, eq_isa_of_mem h hrelation htype (List.mem_of_find?_eq_some hq) hkind]

/-- The properties that give atoms, with the statements that they are of. -/
def giving (s : Statement) : List (Statement × Property) :=
  s.withInner.flatMap fun u => (u.properties.filter (·.givesAtom u)).map (u, ·)

/-- The atoms, each by itself, of the types that relations take in. -/
def foldedTypes (s : Statement) : List Atom :=
  s.withInner.flatMap fun u => (u.properties.filter (!·.givesAtom u)).map (·.ownAtom u.var)

theorem ownAtoms_perm (s : Statement) :
    (s.giving.map (fun x => x.2.ownAtom x.1.var) ++ s.foldedTypes).Perm s.ownAtoms := by
  rw [giving, List.map_flatMap, foldedTypes, ownAtoms]
  refine (List.flatMap_append_perm _ _ _).trans (List.Perm.flatMap_left _ fun u _ => ?_)
  rw [List.map_map]
  have hsplit := List.filter_append_perm (fun p : Property => p.givesAtom u) u.properties
  have hmap := hsplit.map (·.ownAtom u.var)
  rwa [List.map_append] at hmap

theorem atoms_eq (s : Statement) (parent : QueryId) :
    s.atoms parent = s.giving.map fun x =>
      ⟨x.1.var, ⟨x.1.var, .positive, x.2.absorbed x.1⟩, parent, x.2.atomKind x.1⟩ := by
  rw [atoms, giving, List.map_flatMap]
  apply List.flatMap_congr
  intro u _
  rw [List.map_map]
  exact filterMap_ite _ _ _

theorem mem_foldedTypes {a : Atom} :
    a ∈ s.foldedTypes ↔ ∃ u ∈ s.withInner, ∃ type direct, u.hasKind .relation = true ∧
      .isa type direct ∈ u.properties ∧ a = (Property.isa type direct).ownAtom u.var := by
  simp only [foldedTypes, List.mem_flatMap, List.mem_map, List.mem_filter]
  refine exists_congr fun u => and_congr_right fun _ => ⟨?_, ?_⟩
  · rintro ⟨p, ⟨hp, hgives⟩, rfl⟩
    cases p with
    | isa type direct => exact ⟨type, direct, by simpa [Property.givesAtom] using hgives, hp, rfl⟩
    | _ => cases hgives
  · rintro ⟨type, direct, hrelation, htype, rfl⟩
    exact ⟨_, ⟨htype, by simp [Property.givesAtom, hrelation]⟩, rfl⟩

end Statement

/-- The same without the type of a relation. -/
def AtomKind.untyped : AtomKind → AtomKind
  | relation _ _ players => relation none none players
  | k => k

theorem AtomKind.Corresponds.untyped {R : Variable → Variable → Prop}
    {S : List RolePlayer → List RolePlayer → Prop} {k l : AtomKind}
    (h : k.Corresponds .alpha R S l) : k.untyped.Corresponds .alpha R S l.untyped := by
  cases h with
  | relation _ hplayers => exact .relation (fun _ => .none) hplayers
  | isa h => exact .isa h
  | sub h => exact .sub h
  | dataType => exact .dataType
  | resource howned hpredicate => exact .resource howned hpredicate
  | value h => exact .value h
  | identity h => exact .identity h
  | neq h => exact .neq h

theorem Property.atomKind_about (p : Property) (s : Statement) (var : Variable) :
    p.atomKind (.about var) = (p.atomKind s).untyped := by
  cases p <;> rfl

namespace Statement

theorem pairedUp_giving (h : PairedUp (Atom.RenamesTo .alpha f) (s.atoms i) (t.atoms j)) :
    PairedUp (Atom.RenamesTo .alpha f) (s.giving.map fun x => x.2.ownAtom x.1.var)
      (t.giving.map fun x => x.2.ownAtom x.1.var) := by
  rw [atoms_eq, atoms_eq, PairedUp.map_iff] at h
  rw [PairedUp.map_iff]
  apply h.mono
  intro x _ y _ hxy
  refine ⟨hxy.1, ?_⟩
  rw [Property.ownAtom, Property.ownAtom, x.2.atomKind_about x.1, y.2.atomKind_about y.1]
  exact hxy.2.untyped

/-- Where relations of the two statements have atoms of one key, the types that these take in are the
very types of both or of neither. -/
def TakesInAlike (s t : Statement) : Prop :=
  ∀ a b d d', s.TakesIn a d → t.TakesIn b d' → a.alphaKey = b.alphaKey → d = d'

theorem TakesInAlike.symm (h : s.TakesInAlike t) : t.TakesInAlike s :=
  fun a b d d' ha hb hkey => (h b a d' d hb ha hkey.symm).symm

/-- What the atom of a relation with a type is renamed to is the atom of a relation with a type, and
the one type is renamed to the other. -/
theorem exists_isa_of_renamesTo {a b : Atom} {type : TypeRef} {players : List RolePlayer}
    (h : a.RenamesTo .alpha f b) (ha : a.kind = .relation (some type.var) type.label players)
    (hb : b ∈ t.atoms j) :
    ∃ u ∈ t.withInner, ∃ players' type' direct', .relation players' ∈ u.properties ∧
      .isa type' direct' ∈ u.properties ∧ b ∈ (Property.relation players').atom? u j ∧
      b.var = u.var ∧ type.Corresponds (fun v w => f v = w) type' := by
  obtain ⟨type, label⟩ := type
  rw [atoms_eq, List.mem_map] at hb
  obtain ⟨⟨u, q⟩, hmem, rfl⟩ := hb
  obtain ⟨u, hu, hq⟩ := List.mem_flatMap.1 hmem
  obtain ⟨q, hq, heq⟩ := List.mem_map.1 hq
  cases heq
  have hkinds := h.2
  rw [ha] at hkinds
  cases q with
  | relation players' =>
    rw [Property.atomKind] at hkinds
    cases htype : (u.property? .isa).bind Property.isaType? with
    | none =>
      rw [htype] at hkinds
      cases hkinds with
      | relation hvars _ => cases hvars rfl
    | some type' =>
      obtain ⟨p, hp, hisa⟩ := Option.bind_eq_some_iff.1 htype
      cases p with
      | isa type'' direct' =>
        cases hisa
        rw [htype] at hkinds
        refine ⟨u, hu, players', type', direct', (List.mem_filter.1 hq).1,
          List.mem_of_find?_eq_some hp, rfl, rfl, ?_⟩
        obtain ⟨var', label'⟩ := type'
        cases hkinds with
        | relation hvars _ =>
          refine ⟨rfl, fun hlabel => ?_⟩
          cases hvars hlabel with
          | some hvar => exact hvar
      | _ => cases hisa
  | _ => cases hkinds

/-- Types that relations take in are renamed to such types. -/
theorem exists_foldedTypes (h : PairedUp (Atom.RenamesTo .alpha f) (s.atoms i) (t.atoms j))
    (hf : Function.Injective f) (hs : ∀ u ∈ s.withInner, u.TypesAtMostOnce)
    (halike : s.TakesInAlike t) {a : Atom} (ha : a ∈ s.foldedTypes) :
    ∃ b ∈ t.foldedTypes, a.RenamesTo .alpha f b := by
  obtain ⟨u, hu, type, direct, hrelation, htype, rfl⟩ := mem_foldedTypes.1 ha
  obtain ⟨p, hp, hkind⟩ := List.any_eq_true.1 hrelation
  obtain ⟨players, rfl⟩ : ∃ players, p = .relation players := by
    cases p with
    | relation players => exact ⟨players, rfl⟩
    | _ => cases hkind
  let atom : Atom := ⟨u.var, ⟨u.var, .positive, (Property.relation players).absorbed u⟩, i,
    (Property.relation players).atomKind u⟩
  have hatom : atom ∈ (Property.relation players).atom? u i := rfl
  have hmem : atom ∈ s.atoms i := List.mem_flatMap.2 ⟨u, hu, List.mem_filterMap.2 ⟨_, hp, hatom⟩⟩
  have htyped : atom.kind = .relation (some type.var) type.label players := by
    change (Property.relation players).atomKind u = _
    rw [Property.atomKind, property?_isa (hs u hu) hrelation htype]
    rfl
  obtain ⟨b, hb, hab⟩ := h.exists_right hmem
  obtain ⟨u', hu', players', type', direct', hp', htype', hb', hvar, hcorresponds⟩ :=
    exists_isa_of_renamesTo hab htyped hb
  have hkey : atom.alphaKey = b.alphaKey := of_decide_eq_true (hab.equivalent hf)
  obtain rfl : direct = direct' := halike atom b direct direct'
    ⟨u, hu, players, type, i, hp, htype, hatom⟩
    ⟨u', hu', players', type', j, hp', htype', hb'⟩ hkey
  have hrelation' : u'.hasKind .relation = true := List.any_eq_true.2 ⟨_, hp', rfl⟩
  refine ⟨_, mem_foldedTypes.2 ⟨u', hu', type', direct, hrelation', htype', rfl⟩, ?_⟩
  exact ⟨hab.1.trans hvar, .isa hcorresponds⟩

/-- Atoms of properties are renamed to such atoms wherever the atoms of the statements are. -/
theorem exists_ownAtoms (h : PairedUp (Atom.RenamesTo .alpha f) (s.atoms i) (t.atoms j))
    (hf : Function.Injective f) (hs : ∀ u ∈ s.withInner, u.TypesAtMostOnce)
    (halike : s.TakesInAlike t) {a : Atom} (ha : a ∈ s.ownAtoms) :
    ∃ b ∈ t.ownAtoms, a.RenamesTo .alpha f b := by
  simp only [← (ownAtoms_perm _).mem_iff, List.mem_append] at ha ⊢
  rcases ha with ha | ha
  · obtain ⟨b, hb, hab⟩ := (pairedUp_giving h).exists_right ha
    exact ⟨b, .inl hb, hab⟩
  · obtain ⟨b, hb, hab⟩ := exists_foldedTypes h hf hs halike ha
    exact ⟨b, .inr hb, hab⟩

theorem filter_givesAtom (h : s.TypesAtMostOnce) :
    (s.properties.filter (!·.givesAtom s)).length ≤ if s.typesRelation then 1 else 0 := by
  rw [← List.countP_eq_length_filter]
  split
  case isTrue htypes =>
    have hrelation := (Bool.and_eq_true_iff.1 htypes).1
    refine Nat.le_trans (List.countP_mono_left ?_) (h hrelation)
    intro p _ hp
    cases p with
    | isa type direct => rfl
    | _ => cases hp
  case isFalse htypes =>
    rw [Nat.le_zero, List.countP_eq_zero]
    intro p hp hgives
    cases p with
    | isa type direct =>
      have hrelation : s.hasKind .relation = true := by simpa [Property.givesAtom] using hgives
      exact htypes (Bool.and_eq_true_iff.2 ⟨hrelation, List.any_eq_true.2 ⟨_, hp, rfl⟩⟩)
    | _ => cases hgives

theorem nodup_foldedTypes (hs : ∀ u ∈ s.withInner, u.TypesAtMostOnce)
    (h : s.TypesRelationsOnce) : (s.foldedTypes.map (·.var)).Nodup := by
  have hsub {us : List Statement} (hus : ∀ u ∈ us, u.TypesAtMostOnce) :
      ((us.flatMap fun u => (u.properties.filter (!·.givesAtom u)).map (·.ownAtom u.var)).map
        (·.var)).Sublist ((us.filter typesRelation).map (·.var)) := by
    induction us with
    | nil => exact .slnil
    | cons u us ih =>
      rw [List.forall_mem_cons] at hus
      have hfew := filter_givesAtom hus.1
      have hvars : (((u.properties.filter (!·.givesAtom u)).map (·.ownAtom u.var)).map
          (·.var)) = List.replicate (u.properties.filter (!·.givesAtom u)).length u.var := by
        rw [List.map_map]
        exact List.map_const' ..
      rw [List.flatMap_cons, List.map_append, hvars, List.filter_cons]
      split
      case isTrue htypes =>
        rw [if_pos htypes] at hfew
        exact (List.replicate_sublist_replicate (n := 1) u.var |>.2 hfew).append (ih hus.2)
      case isFalse htypes =>
        rw [if_neg htypes, Nat.le_zero] at hfew
        rw [hfew]
        exact ih hus.2
  exact (hsub hs).nodup h

/-- Renamings of the atoms of statements that give types to different relations are renamings of the
atoms of their properties by themselves. -/
theorem pairedUp_ownAtoms {σ : Equiv.Perm Variable}
    (h : PairedUp (Atom.RenamesTo .alpha σ) (s.atoms i) (t.atoms j))
    (hs : ∀ u ∈ s.withInner, u.TypesAtMostOnce) (ht : ∀ u ∈ t.withInner, u.TypesAtMostOnce)
    (halike : s.TakesInAlike t) (hs' : s.TypesRelationsOnce) (ht' : t.TypesRelationsOnce) :
    PairedUp (Atom.RenamesTo .alpha σ) s.ownAtoms t.ownAtoms := by
  have hback : PairedUp (Atom.RenamesTo .alpha σ.symm) (t.atoms j) (s.atoms i) :=
    h.symm fun a b hab => hab.symm σ.symm_apply_apply
  have hfolded : PairedUp (Atom.RenamesTo .alpha σ) s.foldedTypes t.foldedTypes := by
    apply PairedUp.of_nodup_keys (f := fun a => σ a.var) (g := Atom.var)
    · have hnodup := (nodup_foldedTypes hs hs').map σ.injective
      rwa [List.map_map] at hnodup
    · exact nodup_foldedTypes ht ht'
    · intro a b hab
      exact hab.1
    · intro a ha
      exact exists_foldedTypes h σ.injective hs halike ha
    · intro b hb
      obtain ⟨a, ha, hba⟩ := exists_foldedTypes hback σ.symm.injective ht halike.symm hb
      exact ⟨a, ha, hba.symm σ.apply_symm_apply⟩
  exact (((pairedUp_giving h).append hfolded).perm_left (ownAtoms_perm s)).perm_right
    (ownAtoms_perm t)

end Statement

end GraphQuery
