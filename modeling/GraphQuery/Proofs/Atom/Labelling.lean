import GraphQuery.Proofs.Atom.Demands

/-!
# Labels of types

A type that is given by its label carries the statement that it has the label. So the atoms of the
properties of a statement label every type that one of them gives by a label, as often as they give
it, and a renaming of these atoms renames all variables that they mention.
-/

namespace GraphQuery

namespace AtomKind

/-- The type that is given by its label, and the label. -/
def typed? : AtomKind → Option (Variable × Label)
  | isa type _ => type.label.map (type.var, ·)
  | sub superType _ => superType.label.map (superType.var, ·)
  | relation typeVar typeLabel _ => do return (← typeVar, ← typeLabel)
  | dataType _ | resource .. | value _ | identity _ | neq _ => none

/-- The label that a variable is said to have. -/
def label? : AtomKind → Option Label
  | identity (.type l) => some l
  | _ => none

/-- A kind mentions the type that it gives by a label and what its key numbers and its players. -/
theorem mentions_perm (k : AtomKind) :
    k.mentions.Perm (k.typed?.toList.map Prod.fst ++ (k.numbered ++ k.players.map (·.player))) := by
  have htype (type : TypeRef) : [type.var].Perm ((type.label.map (type.var, ·)).toList.map Prod.fst ++
      ((if type.label.isSome then [] else [type.var]) ++ [])) := by
    cases type.label <;> exact .refl _
  cases k with
  | isa type direct => exact htype type
  | sub superType direct => exact htype superType
  | relation typeVar typeLabel players =>
    cases typeVar with
    | none => cases typeLabel <;> exact .refl _
    | some v => cases typeLabel <;> exact .refl _
  | resource l owned predicate =>
    refine .of_eq (List.append_nil _).symm
  | value predicate => exact .of_eq (List.append_nil _).symm
  | _ => exact .refl _

/-- The variables of types that correspond do so themselves, unless both are given by one label. -/
theorem Corresponds.typeVar?_cases {R : Variable → Variable → Prop}
    {S : List RolePlayer → List RolePlayer → Prop} {k k' : AtomKind}
    (h : k.Corresponds .alpha R S k') {v w : Variable} (hv : v ∈ k.typeVar?)
    (hw : w ∈ k'.typeVar?) : R v w ∨ ∃ l, (v, l) ∈ k.typed? ∧ (w, l) ∈ k'.typed? := by
  have htype {a b : TypeRef} (hab : a.Corresponds R b) (hv : a.var = v) (hw : b.var = w) :
      R v w ∨ ∃ l, (v, l) ∈ a.label.map (a.var, ·) ∧ (w, l) ∈ b.label.map (b.var, ·) := by
    subst hv hw
    cases hlabel : a.label with
    | none => exact .inl (hab.2 hlabel)
    | some l =>
      rw [← hab.1, hlabel]
      exact .inr ⟨l, rfl, rfl⟩
  cases h with
  | isa h => exact htype h (Option.some.inj hv) (Option.some.inj hw)
  | sub h => exact htype h (Option.some.inj hv) (Option.some.inj hw)
  | @relation u u' label as bs hvars _ =>
    obtain rfl : u = some v := hv
    obtain rfl : u' = some w := hw
    cases label with
    | none =>
      cases hvars rfl with
      | some hvw => exact .inl hvw
    | some l => exact .inr ⟨l, rfl, rfl⟩
  | _ => cases hv

/-- Kinds that correspond both give a type by one label, or neither does. -/
theorem Corresponds.typed?_rel {R : Variable → Variable → Prop}
    {S : List RolePlayer → List RolePlayer → Prop} {k k' : AtomKind}
    (h : k.Corresponds .alpha R S k') (hk : k.TypedByVariable) (hk' : k'.TypedByVariable) :
    Option.Rel (fun x y => x.2 = y.2) k.typed? k'.typed? := by
  have htype {a b : TypeRef} (hab : a.Corresponds R b) :
      Option.Rel (fun x y => x.2 = y.2) (a.label.map (a.var, ·)) (b.label.map (b.var, ·)) := by
    rw [← hab.1]
    cases a.label with
    | none => exact .none
    | some l => exact .some rfl
  cases h with
  | isa h => exact htype h
  | sub h => exact htype h
  | @relation u u' label as bs _ _ =>
    cases label with
    | none => cases u <;> cases u' <;> exact .none
    | some l =>
      obtain ⟨v, rfl⟩ := Option.isSome_iff_exists.1 (hk rfl)
      obtain ⟨w, rfl⟩ := Option.isSome_iff_exists.1 (hk' rfl)
      exact .some rfl
  | _ => exact .none

theorem Corresponds.label?_eq {R : Variable → Variable → Prop}
    {S : List RolePlayer → List RolePlayer → Prop} {k k' : AtomKind}
    (h : k.Corresponds .alpha R S k') : k.label? = k'.label? := by
  cases h with
  | identity h => cases h <;> rfl
  | _ => rfl

end AtomKind

namespace Atom

/-- The types that atoms give by their labels. -/
def typings (as : List Atom) : List (Variable × Label) := as.filterMap (·.kind.typed?)

/-- The labels that atoms say variables have. -/
def labellings (as : List Atom) : List (Variable × Label) :=
  as.filterMap fun a => a.kind.label?.map (a.var, ·)

/-- What atoms label becomes what the renamed atoms label. -/
theorem labellings_perm_of_pairedUp {f : Variable → Variable} {as bs : List Atom}
    (h : PairedUp (RenamesTo .alpha f) as bs) :
    ((labellings as).map (Prod.map f id)).Perm (labellings bs) := by
  rw [← PairedUp.eq_iff, PairedUp.map_left_iff]
  apply PairedUp.filterMap
  apply h.mono
  intro a _ b _ hab
  rw [← hab.2.label?_eq, ← hab.1]
  cases a.kind.label? with
  | none => exact .none
  | some l => exact .some rfl

end Atom

namespace Statement

variable {s : Statement}

/-- That the statement, or one that it carries, says that the variable has the label. -/
def Labels (s : Statement) (v : Variable) (l : Label) : Prop :=
  ∃ t ∈ s.withInner, t.var = v ∧ .label l ∈ t.properties

/-- The types that a statement gives by their labels, apart from those it carries. -/
def ownTypings (s : Statement) : List (Variable × Label) :=
  Atom.typings (s.properties.map (·.ownAtom s.var))

/-- The labels that a statement gives to its variable. -/
def ownLabellings (s : Statement) : List (Variable × Label) :=
  Atom.labellings (s.properties.map (·.ownAtom s.var))

theorem typings_ownAtoms (s : Statement) :
    Atom.typings s.ownAtoms = s.withInner.flatMap ownTypings :=
  List.filterMap_flatMap ..

theorem labellings_ownAtoms (s : Statement) :
    Atom.labellings s.ownAtoms = s.withInner.flatMap ownLabellings :=
  List.filterMap_flatMap ..

theorem mem_labellings_ownAtoms {v : Variable} {l : Label} :
    (v, l) ∈ Atom.labellings s.ownAtoms ↔ s.Labels v l := by
  rw [labellings_ownAtoms, List.mem_flatMap]
  refine exists_congr fun t => and_congr_right fun _ => ?_
  rw [ownLabellings, Atom.labellings, List.filterMap_map, List.mem_filterMap]
  have hlabel (p : Property) : l ∈ (p.ownAtom t.var).kind.label? ↔ p = .label l := by
    cases p with
    | label l' => simp [Property.ownAtom, Property.atomKind, AtomKind.label?, eq_comm]
    | _ => simp [Property.ownAtom, Property.atomKind, AtomKind.label?]
  constructor
  · rintro ⟨p, hp, hpair⟩
    obtain ⟨l', hl', heq⟩ := Option.map_eq_some_iff.1 hpair
    cases heq
    exact ⟨rfl, (hlabel p).1 hl' ▸ hp⟩
  · rintro ⟨rfl, hp⟩
    exact ⟨_, hp, rfl⟩

end Statement

theorem subperm_flatMap {α β : Type} {f g : α → List β} {l : List α}
    (h : ∀ x ∈ l, (f x).Subperm (g x)) : (l.flatMap f).Subperm (l.flatMap g) := by
  induction l with
  | nil => exact .refl _
  | cons x l ih =>
    rw [List.forall_mem_cons] at h
    exact h.1.append (ih h.2)

/-- If what the properties of a statement carry labels the types that they give, then what the
statement carries labels all of its types. -/
theorem Statement.typings_subperm_of {s : Statement}
    (h : ∀ p ∈ s.properties,
      ((p.atomKind (.about s.var)).typed?.toList ++ p.inner.flatMap ownTypings).Subperm
        (p.inner.flatMap ownLabellings)) :
    (s.withInner.flatMap ownTypings).Subperm (s.inner.flatMap ownLabellings) := by
  rw [withInner, List.flatMap_cons, ownTypings, Atom.typings, List.filterMap_map,
    List.filterMap_eq_flatMap_toList, inner_eq, List.flatMap_assoc, List.flatMap_assoc]
  refine List.Subperm.trans ?_ (subperm_flatMap h)
  exact (List.flatMap_append_perm _ _ _).subperm

/-- The statements that a property carries label the types that it and they give. -/
theorem Property.typings_subperm (p : Property) (var : Variable) :
    ((p.atomKind (.about var)).typed?.toList ++ p.inner.flatMap Statement.ownTypings).Subperm
      (p.inner.flatMap Statement.ownLabellings) := by
  have htype (type : TypeRef) : ((type.label.map (type.var, ·)).toList ++
      type.labelStatement?.toList.flatMap Statement.ownTypings).Subperm
        (type.labelStatement?.toList.flatMap Statement.ownLabellings) := by
    rw [TypeRef.labelStatement?]
    cases type.label <;> exact .refl _
  induction p using Property.induction generalizing var with
  | has type owned ih =>
    have howned := Statement.typings_subperm_of fun p hp => ih p hp owned.var
    refine howned.trans (List.Sublist.subperm ?_)
    exact List.sublist_append_right _ _
  | other p hp =>
    cases p with
    | isa type direct => exact htype type
    | sub superType direct => exact htype superType
    | has => exact absurd rfl hp
    | _ => exact .refl _

/-- Each type that is given by its label is labelled by an atom of its own. -/
theorem Statement.typings_subperm (s : Statement) :
    (Atom.typings s.ownAtoms).Subperm (Atom.labellings s.ownAtoms) := by
  have hinner := typings_subperm_of fun p (_ : p ∈ s.properties) => p.typings_subperm s.var
  rw [typings_ownAtoms, labellings_ownAtoms, withInner, List.flatMap_cons (f := ownLabellings)]
  exact hinner.trans (List.sublist_append_right s.ownLabellings _).subperm

end GraphQuery
