import GraphQuery.Proofs.Atom.Folding
import GraphQuery.Proofs.Atom.Labelling
import GraphQuery.Proofs.Query.Equivalence

/-!
# Equivalent queries have the same constraints

Where the atoms of two statements' properties are renamings of each other, so are the constraints of
the statements. The renaming of the atoms says nothing of a type that is given by its label, so the
constraints agree in such a type only up to variables of one label.
-/

namespace GraphQuery

variable {f : Variable → Variable} {E : Variable → Variable → Prop} {m n : Supply}
  {s t : Statement}

/-- A renaming carries the variables that it renames in one atom to those that it renames in the
other. -/
theorem Atom.RenamesTo.mem_renamed {a b : Atom} (h : a.RenamesTo .alpha f b) {v : Variable}
    (hv : v ∈ a.renamed) : f v ∈ b.renamed := by
  rw [renamed, ← h.1, h.2.numbered_eq_map]
  have hplayers := h.renameTo_players.map (·.player)
  rw [List.map_map] at hplayers
  rcases List.mem_cons.1 hv with rfl | hv
  · exact List.mem_cons_self
  · apply List.mem_cons_of_mem
    rcases List.mem_append.1 hv with hv | hv
    · exact List.mem_append_left _ (List.mem_map_of_mem hv)
    · apply List.mem_append_right
      rw [← hplayers.mem_iff]
      obtain ⟨rp, hrp, rfl⟩ := List.mem_map.1 hv
      exact List.mem_map.2 ⟨rp, hrp, rfl⟩

theorem AtomKind.mem_of_mem_demands {k : AtomKind} {var v : Variable} {d : Demand}
    (hd : d ∈ k.demands var) (hv : v ∈ d.vars) : v = var ∨ v ∈ k.mentions := by
  cases k with
  | isa type direct =>
    rw [List.mem_singleton.1 hd, Demand.mem_vars_ofIsa] at hv
    simpa [mentions] using hv
  | relation typeVar typeLabel players =>
    obtain ⟨rp, hrp, rfl⟩ := List.mem_map.1 hd
    rcases List.mem_cons.1 hv with rfl | hv
    · exact .inl rfl
    · rw [List.mem_singleton.1 hv]
      exact .inr (List.mem_append_right _ (List.mem_map_of_mem hrp))
  | sub superType direct =>
    rw [List.mem_singleton.1 hd] at hv
    simpa [Demand.vars, FragmentSet.mem_vars_bothWays, Edge.source, Edge.target, Edge.own?,
      mentions] using hv
  | resource l owned predicate =>
    rw [List.mem_singleton.1 hd] at hv
    have hends : v = var ∨ v = owned := by
      simpa [Demand.vars, FragmentSet.mem_vars_bothWays, Edge.source, Edge.target, Edge.own?]
        using hv
    rcases hends with rfl | rfl
    · exact .inl rfl
    · exact .inr List.mem_cons_self
  | identity i =>
    cases i with
    | concept id =>
      rw [List.mem_singleton.1 hd] at hv
      simpa [Demand.vars, FragmentSet.vars, Fragment.vars, Fragment.start, Fragment.others,
        Fragment.finish?, mentions] using hv
    | type l =>
      rw [List.mem_singleton.1 hd] at hv
      simpa [Demand.vars, FragmentSet.vars, Fragment.vars, Fragment.start, Fragment.others,
        Fragment.finish?, mentions] using hv
  | neq other =>
    rw [List.mem_singleton.1 hd] at hv
    have hends : (v = var ∨ v = other) ∨ v = other ∨ v = var := by
      simpa [Demand.vars, FragmentSet.vars, Fragment.vars, Fragment.start, Fragment.others,
        Fragment.finish?, or_assoc] using hv
    simpa [mentions] using hends.elim id Or.symm
  | _ =>
    rw [List.mem_singleton.1 hd] at hv
    simpa [Demand.vars, FragmentSet.vars, Fragment.vars, Fragment.start, Fragment.others,
      Fragment.finish?, mentions] using hv

namespace Statement

theorem typings_subset : Atom.typings s.ownAtoms ⊆ Atom.labellings s.ownAtoms :=
  s.typings_subperm.subset

/-- A renaming of the atoms renames all variables of the constraints, since the types that are given
by labels have atoms of their own. -/
theorem exists_mem_renamed {d : Demand} (hd : d ∈ s.demands) {v : Variable} (hv : v ∈ d.vars) :
    ∃ a ∈ s.ownAtoms, v ∈ a.renamed := by
  obtain ⟨a, ha, hd⟩ := List.mem_flatMap.1 hd
  rcases AtomKind.mem_of_mem_demands hd hv with rfl | hv
  · exact ⟨a, ha, List.mem_cons_self⟩
  · rw [a.kind.mentions_perm.mem_iff, List.mem_append, List.mem_map] at hv
    rcases hv with ⟨⟨w, l⟩, hw, rfl⟩ | hv
    · have htyped : (w, l) ∈ Atom.typings s.ownAtoms :=
        List.mem_filterMap.2 ⟨a, ha, Option.mem_toList.1 hw⟩
      obtain ⟨b, hb, hlabel⟩ := List.mem_filterMap.1 (typings_subset htyped)
      obtain ⟨l', -, heq⟩ := Option.map_eq_some_iff.1 hlabel
      cases heq
      exact ⟨b, hb, List.mem_cons_self⟩
    · exact ⟨a, ha, List.mem_cons_of_mem _ hv⟩

theorem mem_vars_of_mem_mentions {p : Property} (hp : p ∈ s.properties) {v : Variable}
    (hv : v ∈ (p.ownAtom s.var).kind.mentions) : v ∈ s.vars := by
  rw [mem_vars]
  cases p with
  | has attributeType owned =>
    refine .inr ⟨_, hp, mem_vars.2 ?_⟩
    rcases List.mem_cons.1 hv with rfl | hv
    · exact .inl rfl
    · rw [Option.mem_toList, Option.bind_eq_some_iff] at hv
      obtain ⟨predicate, hpredicate, hv⟩ := hv
      obtain ⟨q, hq, hvalue⟩ := List.exists_of_findSome?_eq_some hpredicate
      refine .inr ⟨q, hq, ?_⟩
      cases q with
      | value predicate' =>
        cases hvalue
        exact Option.mem_toList.2 hv
      | _ => cases hvalue
  | label l => cases hv
  | id number => cases hv
  | _ => exact .inr ⟨_, hp, hv⟩

/-- The atoms of a statement rename its variables and those of the statements that it carries. -/
theorem mem_allVars_of_mem_renamed {a : Atom} (ha : a ∈ s.ownAtoms) {v : Variable}
    (hv : v ∈ a.renamed) : v ∈ s.allVars := by
  obtain ⟨u, hu, ha⟩ := List.mem_flatMap.1 ha
  obtain ⟨p, hp, rfl⟩ := List.mem_map.1 ha
  refine List.mem_flatMap.2 ⟨u, hu, ?_⟩
  rcases List.mem_cons.1 hv with rfl | hv
  · exact mem_vars.2 (.inl rfl)
  · apply mem_vars_of_mem_mentions hp
    exact (AtomKind.mentions_perm _).mem_iff.2 (List.mem_append_right _ hv)

/-- A renaming of the atoms extends to a renaming of the constraints. -/
theorem exists_perm_fragments (h : PairedUp (Atom.RetypesTo f E) s.ownAtoms t.ownAtoms)
    (hf : Function.Injective f) (hm : m.FreshTo s.allVars s.additions)
    (hn : n.FreshTo t.allVars t.additions) :
    ∃ σ : Equiv.Perm Variable, PairedUp (FragmentSet.RetypedTo E)
      ((s.fragments.run m).1.map (·.rename σ)) (t.fragments.run n).1 := by
  have hvars : ∀ v ∈ s.demands.flatMap Demand.vars, v ∈ s.allVars ∧ f v ∈ t.allVars := by
    intro v hv
    obtain ⟨d, hd, hv⟩ := List.mem_flatMap.1 hv
    obtain ⟨a, ha, hva⟩ := exists_mem_renamed hd hv
    obtain ⟨b, hb, hab⟩ := h.exists_right ha
    exact ⟨mem_allVars_of_mem_renamed ha hva,
      mem_allVars_of_mem_renamed hb (hab.1.mem_renamed hva)⟩
  have hrenamed : (s.demands.flatMap Demand.vars).map f ⊆ t.allVars := by
    intro w hw
    obtain ⟨v, hv, rfl⟩ := List.mem_map.1 hw
    exact (hvars v hv).2
  rw [← countP_demands] at hm hn
  rw [fragments_eq, fragments_eq]
  exact Demand.exists_perm hf (Atom.pairedUp_demands h) (hm.mono fun v hv => (hvars v hv).1)
    (hn.mono hrenamed)

/-- That two variables are one, or that the statement gives them one label. -/
def SameType (s : Statement) (v w : Variable) : Prop := v = w ∨ ∃ l, s.Labels v l ∧ s.Labels w l

theorem typedByVariable_of_mem_ownAtoms {a : Atom} (ha : a ∈ s.ownAtoms) :
    a.kind.TypedByVariable := by
  obtain ⟨u, -, ha⟩ := List.mem_flatMap.1 ha
  obtain ⟨p, -, rfl⟩ := List.mem_map.1 ha
  cases p with
  | relation players => exact fun hlabel => nomatch hlabel
  | _ => trivial

theorem labels_of_mem_typed? {a : Atom} (ha : a ∈ s.ownAtoms) {v : Variable} {l : Label}
    (hv : (v, l) ∈ a.kind.typed?) : s.Labels v l :=
  mem_labellings_ownAtoms.1 (typings_subset (List.mem_filterMap.2 ⟨a, ha, hv⟩))

/-- A renaming of the atoms renames what a statement labels. -/
theorem Labels.rename (h : ∀ a ∈ s.ownAtoms, ∃ b ∈ t.ownAtoms, a.RenamesTo .alpha f b)
    {v : Variable} {l : Label} (hv : s.Labels v l) : t.Labels (f v) l := by
  obtain ⟨a, ha, hlabel⟩ := List.mem_filterMap.1 (mem_labellings_ownAtoms.2 hv)
  obtain ⟨b, hb, hab⟩ := h a ha
  rw [hab.2.label?_eq] at hlabel
  obtain ⟨l', hl', heq⟩ := Option.map_eq_some_iff.1 hlabel
  cases heq
  rw [hab.1]
  exact mem_labellings_ownAtoms.1 (List.mem_filterMap.2 ⟨b, hb, by rw [hl']; rfl⟩)

/-- Types that are given by a label are renamed to types of the same label. -/
theorem retypesTo_sameType (h : ∀ a ∈ s.ownAtoms, ∃ b ∈ t.ownAtoms, a.RenamesTo .alpha f b)
    {a b : Atom} (ha : a ∈ s.ownAtoms) (hb : b ∈ t.ownAtoms) (hab : a.RenamesTo .alpha f b) :
    a.RetypesTo f t.SameType b := by
  refine ⟨hab, hab.2.typeVar?_rel (typedByVariable_of_mem_ownAtoms ha)
    (typedByVariable_of_mem_ownAtoms hb) ?_⟩
  intro v hv w hw
  rcases hab.2.typeVar?_cases hv hw with hvw | ⟨l, hv, hw⟩
  · exact .inl hvw
  · exact .inr ⟨l, (labels_of_mem_typed? ha hv).rename h, labels_of_mem_typed? hb hw⟩

end Statement

theorem Query.pairedUp_of_equivalent {i j : QueryId} {as bs : List Atom} {c d : Conjunction}
    (h : (ofAtoms i c as).equivalent .alpha (ofAtoms j d bs) = true) :
    ∃ σ : Equiv.Perm Variable, PairedUp (Atom.RenamesTo .alpha σ) as bs := by
  obtain ⟨σ, hσ⟩ := exists_perm_of_equivalent h
  have hcopies : PairedUp (Atom.RenamesTo .alpha σ) (as.map (·.copy i)) (bs.map (·.copy j)) := hσ
  have hpairs := PairedUp.map_iff.1 hcopies
  exact ⟨σ, hpairs⟩

end GraphQuery
