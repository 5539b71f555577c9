import GraphQuery.Proofs.Query.Fragments

/-!
# Types that nothing else mentions

A renaming of atoms need not send a type that is given by its label to its counterpart, only to a type
of the same label. Where types of one label are mentioned by nothing but the atom of which they are the
type and the one that gives them the label, they can be exchanged for each other, and the renaming can
be changed into one that sends every type to its counterpart.
-/

namespace GraphQuery.Atom

variable {as bs : List Atom} {v w : Variable} {l : Label}

/-- The variables of an atom, as often as it mentions them. -/
def occurrences (a : Atom) : List Variable := a.var :: a.kind.mentions

/-- The atoms that do not label a variable. -/
def others (as : List Atom) : List Atom := as.filter (·.kind.label?.isNone)

/-- That the atoms give the label to more than one variable. -/
def Shares (as : List Atom) (l : Label) : Prop :=
  ∃ v w, (v, l) ∈ labellings as ∧ (w, l) ∈ labellings as ∧ v ≠ w

instance (as : List Atom) (l : Label) : Decidable (Shares as l) :=
  decidable_of_iff (∃ x ∈ labellings as, ∃ y ∈ labellings as, x.2 = l ∧ y.2 = l ∧ x.1 ≠ y.1)
    ⟨fun ⟨(v, _), hv, (w, _), hw, hl, hl', hne⟩ => ⟨v, w, hl ▸ hv, hl' ▸ hw, hne⟩,
      fun ⟨v, w, hv, hw, hne⟩ => ⟨(v, l), hv, (w, l), hw, rfl, rfl, hne⟩⟩

/-- Each variable that shares its label with another is the type of one atom, which gives it by the
label, and is mentioned just once more, where it is labelled. -/
def TypesApart (as : List Atom) : Prop :=
  ∀ v l, (v, l) ∈ labellings as → Shares as l →
    (v, l) ∈ typings as ∧ (as.flatMap occurrences).count v = 2

theorem occurrences_perm (a : Atom) :
    a.occurrences.Perm (a.kind.typed?.toList.map Prod.fst ++ a.renamed) :=
  (a.kind.mentions_perm.cons a.var).trans List.perm_middle.symm

theorem typings_cons (a : Atom) (as : List Atom) :
    typings (a :: as) = a.kind.typed?.toList ++ typings as := by
  rw [typings, List.filterMap_cons]
  cases a.kind.typed? <;> rfl

theorem labellings_cons (a : Atom) (as : List Atom) :
    labellings (a :: as) = a.kind.label?.toList.map (a.var, ·) ++ labellings as := by
  rw [labellings, List.filterMap_cons]
  cases a.kind.label? <;> rfl

theorem renamed_of_label? {a : Atom} (h : a.kind.label? = some l) : a.renamed = [a.var] := by
  rw [renamed]
  generalize a.kind = k at h ⊢
  cases k with
  | identity i => rfl
  | _ => cases h

/-- A variable is mentioned as a type with a label, where it is labelled, or in another atom that a
renaming renames it in. -/
theorem count_occurrences (as : List Atom) (v : Variable) :
    (as.flatMap occurrences).count v = ((typings as).map Prod.fst).count v +
      (((labellings as).map Prod.fst).count v + ((others as).flatMap renamed).count v) := by
  induction as with
  | nil => rfl
  | cons a as ih =>
    have hcount := a.occurrences_perm.count_eq v
    rw [List.count_append] at hcount
    have hrest : (others (a :: as)).flatMap renamed =
        (if a.kind.label?.isNone then a.renamed else []) ++ (others as).flatMap renamed := by
      rw [others, List.filter_cons]
      split <;> rfl
    rw [List.flatMap_cons, List.count_append, ih, hcount, typings_cons, labellings_cons, hrest,
      List.map_append, List.map_append, List.count_append, List.count_append, List.count_append]
    cases hlabel : a.kind.label? with
    | none =>
      simp only [Option.isNone_none, if_true, Option.toList_none, List.map_nil, List.count_nil]
      omega
    | some l =>
      simp only [renamed_of_label? hlabel, Option.isNone_some, Bool.false_eq_true, if_false,
        Option.toList_some, List.map_cons, List.map_nil, List.count_nil]
      omega

/-- What it means for a variable to be mentioned by nothing but the two atoms. -/
structure MentionedAsType (as : List Atom) (v : Variable) : Prop where
  typings : ((Atom.typings as).map Prod.fst).count v = 1
  labellings : ((Atom.labellings as).map Prod.fst).count v = 1
  others : ∀ a ∈ others as, v ∉ a.renamed

theorem TypesApart.mentionedAsType (h : TypesApart as) (hv : (v, l) ∈ Atom.labellings as)
    (hl : Shares as l) : MentionedAsType as v := by
  obtain ⟨htyped, hcount⟩ := h v l hv hl
  rw [count_occurrences] at hcount
  have htypings : 0 < ((Atom.typings as).map Prod.fst).count v :=
    List.count_pos_iff.2 (List.mem_map_of_mem htyped)
  have hlabellings : 0 < ((Atom.labellings as).map Prod.fst).count v :=
    List.count_pos_iff.2 (List.mem_map_of_mem hv)
  have hothers : ((others as).flatMap renamed).count v = 0 := by omega
  refine ⟨by omega, by omega, ?_⟩
  intro a ha hmem
  exact List.count_eq_zero.1 hothers (List.mem_flatMap.2 ⟨a, ha, hmem⟩)

/-- A variable that shares a label has no other label. -/
theorem MentionedAsType.label_eq (h : MentionedAsType as v) {l' : Label}
    (hv : (v, l) ∈ Atom.labellings as) (hv' : (v, l') ∈ Atom.labellings as) : l = l' := by
  by_contra hne
  have hcount := h.labellings
  obtain ⟨front, back, hsplit⟩ := List.append_of_mem hv
  rw [hsplit] at hcount hv'
  have hmem : (v, l') ∈ front ++ back := by
    rw [List.mem_append, List.mem_cons] at hv'
    rw [List.mem_append]
    rcases hv' with h | h | h
    · exact .inl h
    · exact absurd (congrArg Prod.snd h).symm hne
    · exact .inr h
  have hpos := List.count_pos_iff.2 (List.mem_map_of_mem (f := Prod.fst) hmem)
  simp only [List.map_append, List.map_cons, List.count_append, List.count_cons_self] at hcount hpos
  omega

/-- The types that two lists of corresponding atoms give by labels, paired off. -/
theorem exists_typing_pairs {f : Variable → Variable} {zs : List Atom}
    (has : ∀ a ∈ as, a.kind.TypedByVariable) (hzs : ∀ z ∈ zs, z.kind.TypedByVariable)
    (h : List.Forall₂ (RenamesTo .alpha f) as zs) :
    ∃ pairs : List (Variable × Variable × Label),
      typings as = pairs.map (fun p => (p.1, p.2.2)) ∧ typings zs = pairs.map Prod.snd ∧
        List.Forall₂ (fun a z => a.RenamesTo .alpha f z ∧
          ∀ v w l, (v, l) ∈ a.kind.typed? → (w, l) ∈ z.kind.typed? → (v, w, l) ∈ pairs) as zs := by
  induction h with
  | nil => exact ⟨[], rfl, rfl, .nil⟩
  | @cons a z as zs haz hrest ih =>
    rw [List.forall_mem_cons] at has hzs
    obtain ⟨pairs, htypings, htypings', hpairs⟩ := ih has.2 hzs.2
    rw [typings_cons, typings_cons, htypings, htypings']
    have htyped := haz.2.typed?_rel has.1 hzs.1
    generalize ha : a.kind.typed? = x at htyped ⊢
    generalize hz : z.kind.typed? = y at htyped ⊢
    cases htyped with
    | none =>
      refine ⟨pairs, rfl, rfl, .cons ⟨haz, ?_⟩ hpairs⟩
      intro v w l hv
      rw [ha] at hv
      cases hv
    | @some x y hlabel =>
      obtain ⟨v, l⟩ := x
      obtain ⟨w, l'⟩ := y
      obtain rfl : l = l' := hlabel
      refine ⟨(v, w, l) :: pairs, rfl, rfl, .cons ⟨haz, ?_⟩ (hpairs.imp ?_)⟩
      · intro v' w' l' hv' hw'
        rw [ha] at hv'
        rw [hz] at hw'
        cases hv'
        cases hw'
        exact List.mem_cons_self
      · intro b c hbc
        exact ⟨hbc.1, fun v' w' l' hv' hw' => List.mem_cons_of_mem _ (hbc.2 v' w' l' hv' hw')⟩

/-- That the variable shares some label with another one. -/
def SharesLabel (as : List Atom) (v : Variable) : Prop := ∃ l, Shares as l ∧ (v, l) ∈ labellings as

instance (as : List Atom) (v : Variable) : Decidable (SharesLabel as v) :=
  decidable_of_iff (∃ x ∈ labellings as, Shares as x.2 ∧ x.1 = v)
    ⟨fun ⟨(_, l), hx, hl, hv⟩ => ⟨l, hl, hv ▸ hx⟩, fun ⟨l, hl, hv⟩ => ⟨(v, l), hv, hl, rfl⟩⟩

/-- The pairs of types whose labels are shared. -/
def sharedPairs (as : List Atom) (pairs : List (Variable × Variable × Label)) :
    List (Variable × Variable) :=
  (pairs.filter fun p => Shares as p.2.2).map fun p => (p.1, p.2.1)

theorem mem_sharedPairs {pairs : List (Variable × Variable × Label)} {p : Variable × Variable} :
    p ∈ sharedPairs as pairs ↔ ∃ l, Shares as l ∧ (p.1, p.2, l) ∈ pairs := by
  constructor
  · intro hp
    obtain ⟨⟨v, w, l⟩, hmem, rfl⟩ := List.mem_map.1 hp
    obtain ⟨hmem, hl⟩ := List.mem_filter.1 hmem
    exact ⟨l, of_decide_eq_true hl, hmem⟩
  · rintro ⟨l, hl, hmem⟩
    exact List.mem_map.2 ⟨_, List.mem_filter.2 ⟨hmem, decide_eq_true hl⟩, rfl⟩

/-- What is known of two lists of atoms of which a renaming carries the one to the other: the pairs of
types that are given by labels, and where labels come from. -/
structure Typed (σ : Equiv.Perm Variable) (pairs : List (Variable × Variable × Label))
    (as bs : List Atom) : Prop where
  typings : typings as = pairs.map fun p => (p.1, p.2.2)
  typings' : (pairs.map Prod.snd).Perm (Atom.typings bs)
  labelled : (Atom.typings as).Subperm (labellings as)
  labelled' : (Atom.typings bs).Subperm (labellings bs)
  labellings : ((Atom.labellings as).map (Prod.map σ id)).Perm (Atom.labellings bs)
  apart : TypesApart as

namespace Typed

variable {σ : Equiv.Perm Variable} {pairs : List (Variable × Variable × Label)}

theorem mem_labellings_left (h : Typed σ pairs as bs) (hp : (v, w, l) ∈ pairs) :
    (v, l) ∈ Atom.labellings as := by
  apply h.labelled.subset
  rw [h.typings]
  exact List.mem_map.2 ⟨_, hp, rfl⟩

theorem exists_mem_labellings (h : Typed σ pairs as bs) (hw : (w, l) ∈ Atom.labellings bs) :
    ∃ u, (u, l) ∈ Atom.labellings as ∧ σ u = w := by
  rw [← h.labellings.mem_iff] at hw
  obtain ⟨⟨u, l'⟩, hu, heq⟩ := List.mem_map.1 hw
  cases heq
  exact ⟨u, hu, rfl⟩

theorem mem_labellings_right (h : Typed σ pairs as bs) (hp : (v, w, l) ∈ pairs) :
    (w, l) ∈ Atom.labellings bs :=
  h.labelled'.subset (h.typings'.mem_iff.1 (List.mem_map_of_mem hp))

/-- A variable with a label that it does not share shares none. -/
theorem not_sharesLabel (h : Typed σ pairs as bs) (hv : (v, l) ∈ Atom.labellings as)
    (hl : ¬Shares as l) : ¬SharesLabel as v := by
  rintro ⟨l', hl', hv'⟩
  exact hl ((h.apart.mentionedAsType hv' hl').label_eq hv' hv ▸ hl')

theorem count_target_le (h : Typed σ pairs as bs) (u : Variable) :
    ((pairs.map Prod.snd).map Prod.fst).count (σ u) ≤ ((Atom.labellings as).map Prod.fst).count u := by
  have hsub : ((pairs.map Prod.snd).map Prod.fst).Subperm
      (((Atom.labellings as).map Prod.fst).map σ) := by
    obtain ⟨xs, hperm, hxs⟩ :=
      (h.typings'.subperm.trans h.labelled').trans h.labellings.symm.subperm
    refine ⟨xs.map Prod.fst, hperm.map _, ?_⟩
    have hfst := hxs.map Prod.fst
    rw [List.map_map] at hfst ⊢
    exact hfst
  refine (hsub.count_le _).trans (Nat.le_of_eq ?_)
  exact List.count_map_of_injective _ _ σ.injective _

theorem nodup_fst_sharedPairs (h : Typed σ pairs as bs) :
    ((sharedPairs as pairs).map Prod.fst).Nodup := by
  have hsub : ((sharedPairs as pairs).map Prod.fst).Sublist ((Atom.typings as).map Prod.fst) := by
    rw [h.typings, sharedPairs, List.map_map, List.map_map]
    exact List.filter_sublist.map _
  apply nodup_of_sublist hsub
  intro v hv
  obtain ⟨p, hp, rfl⟩ := List.mem_map.1 hv
  obtain ⟨l, hl, hp⟩ := mem_sharedPairs.1 hp
  exact Nat.le_of_eq (h.apart.mentionedAsType (h.mem_labellings_left hp) hl).typings

/-- The counterpart of a type with a shared label is what the renaming makes of such a type. -/
theorem exists_of_mem_snd_sharedPairs (h : Typed σ pairs as bs)
    (hw : w ∈ (sharedPairs as pairs).map Prod.snd) :
    ∃ u l, (u, l) ∈ Atom.labellings as ∧ Shares as l ∧ σ u = w := by
  obtain ⟨p, hp, rfl⟩ := List.mem_map.1 hw
  obtain ⟨l, hl, hp⟩ := mem_sharedPairs.1 hp
  obtain ⟨u, hu, huw⟩ := h.exists_mem_labellings (h.mem_labellings_right hp)
  exact ⟨u, l, hu, hl, huw⟩

theorem nodup_snd_sharedPairs (h : Typed σ pairs as bs) :
    ((sharedPairs as pairs).map Prod.snd).Nodup := by
  have hsub : ((sharedPairs as pairs).map Prod.snd).Sublist
      ((pairs.map Prod.snd).map Prod.fst) := by
    rw [sharedPairs, List.map_map, List.map_map]
    exact List.filter_sublist.map _
  apply nodup_of_sublist hsub
  intro w hw
  obtain ⟨u, l, hu, hl, rfl⟩ := h.exists_of_mem_snd_sharedPairs hw
  exact (h.count_target_le u).trans (Nat.le_of_eq (h.apart.mentionedAsType hu hl).labellings)

/-- The renaming can be changed so that it respects the pairs of types whose labels are shared, and
does the same as before to all other variables. -/
theorem exists_perm (h : Typed σ pairs as bs) :
    ∃ τ : Equiv.Perm Variable, (∀ v ∈ as.flatMap occurrences, ¬SharesLabel as v → τ v = σ v) ∧
      ∀ v w l, (v, w, l) ∈ pairs → Shares as l → τ v = w := by
  let named := (as.flatMap occurrences).filter fun v => ¬SharesLabel as v
  have hnew : ∀ v ∈ named, v ∉ (sharedPairs as pairs).map Prod.fst ∧
      σ v ∉ (sharedPairs as pairs).map Prod.snd := by
    intro v hv
    have hnot : ¬SharesLabel as v := of_decide_eq_true (List.mem_filter.1 hv).2
    constructor
    · intro hmem
      obtain ⟨p, hp, rfl⟩ := List.mem_map.1 hmem
      obtain ⟨l, hl, hp⟩ := mem_sharedPairs.1 hp
      exact hnot ⟨l, hl, h.mem_labellings_left hp⟩
    · intro hmem
      obtain ⟨u, l, hu, hl, huv⟩ := h.exists_of_mem_snd_sharedPairs hmem
      exact hnot ⟨l, hl, σ.injective huv ▸ hu⟩
  obtain ⟨τ, hτ, hτ'⟩ := Renaming.exists_perm_extending (fun _ _ _ _ h => σ.injective h)
    h.nodup_fst_sharedPairs h.nodup_snd_sharedPairs hnew
  refine ⟨τ, ?_, ?_⟩
  · intro v hv hnot
    exact hτ v (List.mem_filter.2 ⟨hv, decide_eq_true hnot⟩)
  · intro v w l hp hl
    exact hτ' (v, w) (mem_sharedPairs.2 ⟨l, hl, hp⟩)

variable {τ : Equiv.Perm Variable}

theorem map_eq_of_not_shares (h : Typed σ pairs as bs)
    (hτ : ∀ v ∈ as.flatMap occurrences, ¬SharesLabel as v → τ v = σ v)
    (hv : (v, l) ∈ Atom.labellings as) (hl : ¬Shares as l) : τ v = σ v := by
  apply hτ v _ (h.not_sharesLabel hv hl)
  obtain ⟨a, ha, hlabel⟩ := List.mem_filterMap.1 hv
  obtain ⟨l', -, heq⟩ := Option.map_eq_some_iff.1 hlabel
  cases heq
  exact List.mem_flatMap.2 ⟨a, ha, List.mem_cons_self⟩

/-- Variables that share a label are exchanged for each other. -/
theorem shared_labellings_perm (h : Typed σ pairs as bs)
    (hτ' : ∀ v w l, (v, w, l) ∈ pairs → Shares as l → τ v = w) :
    let shared := (Atom.labellings as).filter fun x => Shares as x.2
    (shared.map (Prod.map τ id)).Perm (shared.map (Prod.map σ id)) := by
  intro shared
  have hnodup : shared.Nodup := by
    apply nodup_of_sublist List.filter_sublist
    intro x hx
    obtain ⟨hx, hl⟩ := List.mem_filter.1 hx
    have hmentioned := h.apart.mentionedAsType hx (of_decide_eq_true hl)
    exact hmentioned.labellings ▸ List.count_le_count_map
  have hnodup' := hnodup.map (τ.injective.prodMap Function.injective_id)
  apply (List.subperm_of_subset hnodup' ?_).perm_of_length_le
  · rw [List.length_map, List.length_map]
  · intro x hx
    obtain ⟨⟨v, l⟩, hv, rfl⟩ := List.mem_map.1 hx
    obtain ⟨hv, hl⟩ := List.mem_filter.1 hv
    have hshares : Shares as l := of_decide_eq_true hl
    have htyped := (h.apart v l hv hshares).1
    rw [h.typings] at htyped
    obtain ⟨⟨v, w, l⟩, hp, heq⟩ := List.mem_map.1 htyped
    cases heq
    obtain ⟨u, hu, huw⟩ := h.exists_mem_labellings (h.mem_labellings_right hp)
    refine List.mem_map.2 ⟨(u, l), List.mem_filter.2 ⟨hu, hl⟩, ?_⟩
    rw [Prod.map_apply, Prod.map_apply, huw, hτ' v w l hp hshares]

/-- Both renamings give labels to the same variables. -/
theorem labellings_perm (h : Typed σ pairs as bs)
    (hτ : ∀ v ∈ as.flatMap occurrences, ¬SharesLabel as v → τ v = σ v)
    (hτ' : ∀ v w l, (v, w, l) ∈ pairs → Shares as l → τ v = w) :
    ((Atom.labellings as).map (Prod.map τ id)).Perm (Atom.labellings bs) := by
  let p : Variable × Label → Bool := fun x => Shares as x.2
  have hsplit := (List.filter_append_perm p (Atom.labellings as)).symm
  have hrest : ((Atom.labellings as).filter (!p ·)).map (Prod.map τ id) =
      ((Atom.labellings as).filter (!p ·)).map (Prod.map σ id) := by
    apply List.map_congr_left
    intro x hx
    obtain ⟨hx, hl⟩ := List.mem_filter.1 hx
    have hl : ¬Shares as x.2 := by simpa [p] using hl
    exact congrArg (·, x.2) (h.map_eq_of_not_shares hτ hx hl)
  refine ((hsplit.map _).trans (.trans ?_ (hsplit.map _).symm)).trans h.labellings
  rw [List.map_append, List.map_append, hrest]
  exact (h.shared_labellings_perm hτ').append_right _

/-- A type that is given by its label is sent to its counterpart. -/
theorem map_eq_of_mem_pairs (h : Typed σ pairs as bs)
    (hτ : ∀ v ∈ as.flatMap occurrences, ¬SharesLabel as v → τ v = σ v)
    (hτ' : ∀ v w l, (v, w, l) ∈ pairs → Shares as l → τ v = w) (hp : (v, w, l) ∈ pairs) :
    τ v = w := by
  by_cases hl : Shares as l
  · exact hτ' v w l hp hl
  · have hv := h.mem_labellings_left hp
    obtain ⟨u, hu, rfl⟩ := h.exists_mem_labellings (h.mem_labellings_right hp)
    have huv : u = v := by
      by_contra hne
      exact hl ⟨u, v, hu, hv, hne⟩
    rw [h.map_eq_of_not_shares hτ hv hl, huv]

/-- Atoms that label no variable are paired as before. -/
theorem retypesTo (h : Typed σ pairs as bs)
    (hτ : ∀ v ∈ as.flatMap occurrences, ¬SharesLabel as v → τ v = σ v)
    (hτ' : ∀ v w l, (v, w, l) ∈ pairs → Shares as l → τ v = w) {a b : Atom} (ha : a ∈ others as)
    (hk : a.kind.TypedByVariable) (hk' : b.kind.TypedByVariable) (hab : a.RenamesTo .alpha σ b)
    (htypes : ∀ v w l, (v, l) ∈ a.kind.typed? → (w, l) ∈ b.kind.typed? → (v, w, l) ∈ pairs) :
    a.RetypesTo τ Eq b := by
  have hrenames : a.RenamesTo .alpha τ b := by
    apply hab.congr
    intro v hv
    refine (hτ v ?_ ?_).symm
    · refine List.mem_flatMap.2 ⟨a, (List.mem_filter.1 ha).1, ?_⟩
      exact a.occurrences_perm.mem_iff.2 (List.mem_append_right _ hv)
    · rintro ⟨l, hl, hvl⟩
      exact (h.apart.mentionedAsType hvl hl).others a ha hv
  refine ⟨hrenames, hrenames.2.typeVar?_rel hk hk' ?_⟩
  intro v hv w hw
  rcases hrenames.2.typeVar?_cases hv hw with hvw | ⟨l, hv, hw⟩
  · exact hvw
  · exact h.map_eq_of_mem_pairs hτ hτ' (htypes v w l hv hw)

end Typed

theorem retypesTo_of_label? {f : Variable → Variable} {a b : Atom} (ha : a.kind.label? = some l)
    (hb : b.kind.label? = some l) (hvar : f a.var = b.var) : a.RetypesTo f Eq b := by
  have hkind {k : AtomKind} (hk : k.label? = some l) : k = .identity (.type l) := by
    cases k with
    | identity i =>
      cases i with
      | concept id => cases hk
      | type l' =>
        cases hk
        rfl
    | _ => cases hk
  rw [RetypesTo, RenamesTo, hkind ha, hkind hb]
  exact ⟨⟨hvar, .identity .type⟩, .none⟩

/-- Where types of one label are mentioned by nothing else, the types that are given by labels can be
renamed to their counterparts too. -/
theorem exists_retypesTo {σ : Equiv.Perm Variable} (h : PairedUp (RenamesTo .alpha σ) as bs)
    (has : ∀ a ∈ as, a.kind.TypedByVariable) (hbs : ∀ b ∈ bs, b.kind.TypedByVariable)
    (hlabelled : (typings as).Subperm (labellings as))
    (hlabelled' : (typings bs).Subperm (labellings bs)) (hapart : TypesApart as) :
    ∃ τ : Equiv.Perm Variable, PairedUp (RetypesTo τ Eq) as bs := by
  have hlabellings := labellings_perm_of_pairedUp h
  obtain ⟨zs, hperm, hzs⟩ := h
  obtain ⟨pairs, htypings, htypings', hpairs⟩ :=
    exists_typing_pairs has (fun z hz => hbs z (hperm.mem_iff.1 hz)) hzs
  have htyped : Typed σ pairs as bs :=
    ⟨htypings, htypings' ▸ hperm.filterMap _, hlabelled, hlabelled', hlabellings, hapart⟩
  obtain ⟨τ, hτ, hτ'⟩ := htyped.exists_perm
  refine ⟨τ, ?_⟩
  -- The atoms that label variables are paired anew, all others as before.
  have hlabel : PairedUp (RetypesTo τ Eq) (as.filter (·.kind.label?.isSome))
      (bs.filter (·.kind.label?.isSome)) := by
    have hnew := htyped.labellings_perm hτ hτ'
    rw [← PairedUp.eq_iff, PairedUp.map_left_iff] at hnew
    have hlabel := PairedUp.of_filterMap hnew
    simp only [Option.isSome_map] at hlabel
    apply hlabel.mono
    intro a ha b hb hab
    obtain ⟨l, hl⟩ := Option.isSome_iff_exists.1 (List.mem_filter.1 ha).2
    obtain ⟨l', hl'⟩ := Option.isSome_iff_exists.1 (List.mem_filter.1 hb).2
    rw [hl, hl'] at hab
    cases hab with
    | some hab =>
      obtain ⟨hvar, rfl⟩ := Prod.mk.inj hab
      exact retypesTo_of_label? hl hl' hvar
  have hothers : PairedUp (RetypesTo τ Eq) (others as) (others bs) := by
    have hrest := PairedUp.filter (p := fun a => a.kind.label?.isNone)
      (q := fun b => b.kind.label?.isNone) ⟨zs, hperm, hpairs⟩
      fun a z haz => congrArg Option.isNone haz.1.2.label?_eq
    apply PairedUp.mono hrest
    intro a ha b hb hab
    exact htyped.retypesTo hτ hτ' ha (has a (List.mem_filter.1 ha).1)
      (hbs b (List.mem_filter.1 hb).1) hab.1 hab.2
  have hsplit (xs : List Atom) : (xs.filter (·.kind.label?.isSome) ++ others xs).Perm xs := by
    have hperm := List.filter_append_perm (fun a : Atom => a.kind.label?.isSome) xs
    simpa only [others, Option.not_isSome] using hperm
  exact ((hlabel.append hothers).perm_left (hsplit as)).perm_right (hsplit bs)

end GraphQuery.Atom
