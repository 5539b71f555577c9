import GraphQuery.Atom.Derivation
import GraphQuery.Proofs.Atom.Key
import GraphQuery.Proofs.Atom.Rename
import GraphQuery.Proofs.Unifier.RolePairing
import GraphQuery.Proofs.Unifier.Substitution
import GraphQuery.Unifier.Unification
import Mathlib

/-!
# Exact unification

The exact unifiers of two atoms are the one-to-one substitutions of the variables of the one by those
of the other that turn the one into the other, but for the order of players. In particular every atom
unifies with itself by sending each variable to itself, and unifying the other way round gives the
inverses.
-/

namespace GraphQuery

variable {f : Variable → Variable}

namespace AtomKind

/-- A relation whose type has a label has a variable for the type as well. -/
def TypedByVariable : AtomKind → Prop
  | relation typeVar typeLabel _ => typeLabel.isSome → typeVar.isSome
  | _ => True

theorem corresponds_of_eqUpToOrder {k l : AtomKind} (h : (k.rename f).EqUpToOrder l) :
    k.Corresponds .alpha (fun v w => f v = w) (RolePlayer.RenameTo f) l := by
  cases k with
  | isa type direct =>
    cases h
    exact .isa ⟨rfl, fun _ => rfl⟩
  | sub superType direct =>
    cases h
    exact .sub ⟨rfl, fun _ => rfl⟩
  | dataType t =>
    cases h
    exact .dataType
  | resource l owned predicate =>
    cases h
    apply AtomKind.Corresponds.resource (R := fun v w => f v = w) rfl
    cases predicate with
    | none => exact .none
    | some p => exact .some ⟨rfl, p.operand.corresponds_rename⟩
  | relation typeVar typeLabel players =>
    have hvar : Option.Rel (fun v w => f v = w) typeVar (typeVar.map f) := by
      cases typeVar with
      | none => exact .none
      | some v => exact .some rfl
    cases h with
    | refl => exact .relation (fun _ => hvar) (List.Perm.refl _)
    | relation h => exact .relation (fun _ => hvar) h
  | value p =>
    cases h
    exact .value ⟨rfl, p.operand.corresponds_rename⟩
  | identity i =>
    cases h
    exact .identity (.refl i)
  | neq other =>
    cases h
    exact .neq rfl

theorem compatible_of_corresponds {R : Variable → Variable → Prop}
    {S : List RolePlayer → List RolePlayer → Prop} {k l : AtomKind}
    (h : k.Corresponds .alpha R S l) : k.compatible l = true := by
  have hpredicate {p q : ValuePredicate} (hpq : p.Corresponds .alpha R q) :
      predicatesCompatible (some p) (some q) = true := by
    obtain ⟨comparator, a⟩ := p
    obtain ⟨comparator', b⟩ := q
    obtain ⟨rfl, hab⟩ := hpq
    cases hab with
    | constant hconstant =>
      obtain rfl := hconstant rfl
      simp [predicatesCompatible]
    | var _ => rfl
  cases h with
  | isa h =>
    rw [compatible, h.1]
    exact labelsCompatible_self _
  | sub h =>
    rw [compatible, h.1]
    exact labelsCompatible_self _
  | dataType => exact decide_eq_true rfl
  | resource _ hpredicates =>
    refine Bool.and_eq_true_iff.2 ⟨decide_eq_true rfl, ?_⟩
    cases hpredicates with
    | none => rfl
    | some hpq => exact hpredicate hpq
  | relation _ _ => exact labelsCompatible_self _
  | value h => exact hpredicate h
  | identity h =>
    cases h with
    | concept hconcept =>
      obtain rfl := hconcept rfl
      exact decide_eq_true rfl
    | type => exact decide_eq_true rfl
  | neq _ => rfl

/-- The pairs that all correspondences of two kinds have: those of variables that are no players. -/
def fixedPairs : AtomKind → AtomKind → List (Variable × Variable)
  | isa a _, isa b _ => [(a.var, b.var)]
  | sub a _, sub b _ => [(a.var, b.var)]
  | resource _ a predicateA, resource _ b predicateB =>
    (a, b) :: (operandPair? predicateA predicateB).toList
  | relation a _ _, relation b _ _ => (do return (← a, ← b) : Option (Variable × Variable)).toList
  | value a, value b => (operandPair? (some a) (some b)).toList
  | neq a, neq b => [(a, b)]
  | _, _ => []

theorem correspondences_eq {strictness : Strictness} {k l : AtomKind}
    (h : k.compatible l = true) :
    k.correspondences strictness l =
      (RolePlayer.pairings strictness k.players l.players).map (k.fixedPairs l ++ ·) := by
  -- All kinds but relations have no players, so nothing is left to pair.
  have hnone (fixed : List (Variable × Variable)) :
      [fixed] = (RolePlayer.pairings strictness [] []).map (fixed ++ ·) := by
    rw [RolePlayer.pairings_nil, List.map_singleton, List.append_nil]
  cases k with
  | isa type direct =>
    cases l with
    | isa type' direct' => exact hnone _
    | _ => cases h
  | sub superType direct =>
    cases l with
    | sub superType' direct' => exact hnone _
    | _ => cases h
  | dataType t =>
    cases l with
    | dataType t' => exact hnone _
    | _ => cases h
  | resource attributeType owned predicate =>
    cases l with
    | resource attributeType' owned' predicate' => exact hnone _
    | _ => cases h
  | relation typeVar typeLabel players =>
    cases l with
    | relation typeVar' typeLabel' players' => rfl
    | _ => cases h
  | value p =>
    cases l with
    | value q => exact hnone _
    | _ => cases h
  | identity i =>
    cases l with
    | identity j => exact hnone _
    | _ => cases h
  | neq other =>
    cases l with
    | neq other' => exact hnone _
    | _ => cases h

/-- The fixed pairs of a kind and its renaming pair each variable that is no player with its image. -/
theorem fixedPairs_of_eqUpToOrder {k l : AtomKind} (h : (k.rename f).EqUpToOrder l) :
    ∃ front : List Variable, k.mentions = front ++ k.players.map (·.player) ∧
      k.fixedPairs l = front.map fun v => (v, f v) := by
  have hoperand (o : Option ValuePredicate) :
      (operandPair? o (o.map (·.rename f))).toList =
        (o.bind (·.operand.var?)).toList.map fun v => (v, f v) := by
    cases o with
    | none => rfl
    | some p =>
      obtain ⟨comparator, operand⟩ := p
      cases operand <;> rfl
  cases k with
  | isa type direct =>
    cases h
    exact ⟨[type.var], rfl, rfl⟩
  | sub superType direct =>
    cases h
    exact ⟨[superType.var], rfl, rfl⟩
  | dataType t =>
    cases h
    exact ⟨[], rfl, rfl⟩
  | resource l owned predicate =>
    cases h
    exact ⟨owned :: (predicate.bind (·.operand.var?)).toList, (List.append_nil _).symm,
      congrArg ((owned, f owned) :: ·) (hoperand predicate)⟩
  | relation typeVar typeLabel players =>
    refine ⟨typeVar.toList, rfl, ?_⟩
    cases h <;> cases typeVar <;> rfl
  | value p =>
    cases h
    exact ⟨p.operand.var?.toList, (List.append_nil _).symm, hoperand (some p)⟩
  | identity i =>
    cases h
    exact ⟨[], rfl, rfl⟩
  | neq other =>
    cases h
    exact ⟨[other], rfl, rfl⟩

/-- The correspondences of a kind and its renaming pair each variable with its image, except that
players may be paired in several ways. -/
theorem correspondences_of_eqUpToOrder {k l : AtomKind} (h : (k.rename f).EqUpToOrder l) :
    ∃ front : List Variable, k.mentions = front ++ k.players.map (·.player) ∧
      k.correspondences .exact l =
        (RolePlayer.pairings .exact k.players l.players).map (front.map (fun v => (v, f v)) ++ ·) := by
  obtain ⟨front, hmentions, hfixed⟩ := fixedPairs_of_eqUpToOrder h
  refine ⟨front, hmentions, ?_⟩
  rw [correspondences_eq (compatible_of_corresponds (corresponds_of_eqUpToOrder h)), hfixed]

theorem exists_correspondence_of_eqUpToOrder {k l : AtomKind} (h : (k.rename f).EqUpToOrder l) :
    ∃ pairs ∈ k.correspondences .exact l, ∀ pair ∈ pairs, f pair.1 = pair.2 := by
  obtain ⟨front, -, hpairs⟩ := correspondences_of_eqUpToOrder h
  have hplayers : RolePlayer.RenameTo f k.players l.players :=
    (corresponds_of_eqUpToOrder h).players List.Perm.nil
  obtain ⟨tail, htail, hf⟩ := RolePlayer.renameTo_iff_exists_pairing.1 hplayers
  refine ⟨front.map (fun v => (v, f v)) ++ tail, ?_, ?_⟩
  · rw [hpairs]
    exact List.mem_map_of_mem htail
  · intro pair hpair
    rcases List.mem_append.1 hpair with hpair | hpair
    · obtain ⟨v, -, rfl⟩ := List.mem_map.1 hpair
      rfl
    · exact hf pair hpair

theorem map_fst_perm_of_correspondence {k l : AtomKind} (h : (k.rename f).EqUpToOrder l)
    {pairs : List (Variable × Variable)} (hpairs : pairs ∈ k.correspondences .exact l) :
    (pairs.map Prod.fst).Perm k.mentions := by
  obtain ⟨front, hmentions, heq⟩ := correspondences_of_eqUpToOrder h
  rw [heq] at hpairs
  obtain ⟨tail, htail, rfl⟩ := List.mem_map.1 hpairs
  rw [hmentions, List.map_append, List.map_map]
  have hfront : (Prod.fst ∘ fun v => (v, f v)) = id := rfl
  rw [hfront, List.map_id]
  exact (RolePlayer.map_fst_perm_of_mem_pairings htail).append_left front

theorem map_snd_perm_of_correspondence {k l : AtomKind} (h : (k.rename f).EqUpToOrder l)
    {pairs : List (Variable × Variable)} (hpairs : pairs ∈ k.correspondences .exact l)
    (hf : ∀ pair ∈ pairs, f pair.1 = pair.2) : (pairs.map Prod.snd).Perm l.mentions := by
  have hsnd : pairs.map Prod.snd = (pairs.map Prod.fst).map f := by
    rw [List.map_map]
    exact List.map_congr_left fun pair hpair => (hf pair hpair).symm
  rw [hsnd]
  refine ((map_fst_perm_of_correspondence h hpairs).map f).trans ?_
  rw [← mentions_rename]
  exact h.mentions_perm

/-- Kinds that correspond have both a type or neither. -/
theorem Corresponds.typeVar?_rel {R R' : Variable → Variable → Prop}
    {S : List RolePlayer → List RolePlayer → Prop} {k l : AtomKind}
    (h : k.Corresponds .alpha R S l) (hk : k.TypedByVariable) (hl : l.TypedByVariable)
    (htype : ∀ v ∈ k.typeVar?, ∀ w ∈ l.typeVar?, R' v w) :
    Option.Rel R' k.typeVar? l.typeVar? := by
  cases h with
  | isa _ => exact .some (htype _ rfl _ rfl)
  | sub _ => exact .some (htype _ rfl _ rfl)
  | @relation v w label as bs hvars _ =>
    cases v with
    | none =>
      cases w with
      | none => exact .none
      | some w =>
        cases label with
        | none => cases hvars rfl
        | some l => cases hk rfl
    | some v =>
      cases w with
      | none =>
        cases label with
        | none => cases hvars rfl
        | some l => cases hl rfl
      | some w => exact .some (htype v rfl w rfl)
  | _ => exact .none

/-- A map that respects a correspondence of the variables of two kinds that have equal keys turns the
one into the other. -/
theorem eqUpToOrder_of_correspondence {R : Variable → Variable → Prop}
    {S : List RolePlayer → List RolePlayer → Prop} {k l : AtomKind}
    (h : k.Corresponds .alpha R S l) (hk : k.TypedByVariable) (hl : l.TypedByVariable)
    {pairs : List (Variable × Variable)} (hpairs : pairs ∈ k.correspondences .exact l)
    (hf : ∀ pair ∈ pairs, f pair.1 = pair.2) : (k.rename f).EqUpToOrder l := by
  have htype {a b : TypeRef} (hab : a.Corresponds R b) (hvar : f a.var = b.var) :
      a.rename f = b := by
    obtain ⟨v, label⟩ := a
    obtain ⟨w, label'⟩ := b
    obtain ⟨rfl, -⟩ := hab
    exact congrArg (TypeRef.mk · label) hvar
  have hpredicate {p q : ValuePredicate} (hpq : p.Corresponds .alpha R q)
      (hvar : ∀ pair ∈ operandPair? (some p) (some q), f pair.1 = pair.2) : p.rename f = q := by
    obtain ⟨comparator, a⟩ := p
    obtain ⟨comparator', b⟩ := q
    obtain ⟨rfl, hab⟩ := hpq
    cases hab with
    | constant hconstant =>
      obtain rfl := hconstant rfl
      rfl
    | @var v w _ => exact congrArg (fun w => ValuePredicate.mk comparator (.var w)) (hvar (v, w) rfl)
  cases h with
  | @isa a b direct h =>
    obtain rfl := List.mem_singleton.1 hpairs
    rw [rename, htype h (hf _ List.mem_cons_self)]
    exact .refl _
  | @sub a b direct h =>
    obtain rfl := List.mem_singleton.1 hpairs
    rw [rename, htype h (hf _ List.mem_cons_self)]
    exact .refl _
  | dataType => exact .refl _
  | @resource l v w p q howned h =>
    obtain rfl := List.mem_singleton.1 hpairs
    have hpq : p.map (·.rename f) = q := by
      cases h with
      | none => rfl
      | some h =>
        apply congrArg some
        apply hpredicate h
        intro pair hpair
        exact hf pair (List.mem_cons_of_mem _ (Option.mem_toList.2 hpair))
    have hvw : f v = w := hf _ List.mem_cons_self
    rw [rename, hpq, hvw]
    exact .refl _
  | @relation v w l as bs hvars hplayers =>
    obtain ⟨tail, htail, rfl⟩ := List.mem_map.1 hpairs
    have hrename : RolePlayer.RenameTo f as bs :=
      RolePlayer.renameTo_iff_exists_pairing.2
        ⟨tail, htail, fun pair hpair => hf pair (List.mem_append_right _ hpair)⟩
    have htypes : Option.Rel (fun v w => f v = w) v w := by
      apply Corresponds.typeVar?_rel (.relation hvars hplayers) hk hl
      intro v' hv w' hw
      obtain rfl : v = some v' := hv
      obtain rfl : w = some w' := hw
      exact hf (v', w') (List.mem_append_left _ List.mem_cons_self)
    have hvw : v.map f = w := by
      cases htypes with
      | none => rfl
      | some h => exact congrArg some h
    rw [rename, hvw]
    exact .relation hrename
  | @value p q h =>
    obtain rfl := List.mem_singleton.1 hpairs
    rw [rename, hpredicate h fun pair hpair => hf pair (Option.mem_toList.2 hpair)]
    exact .refl _
  | @identity i j h =>
    cases h with
    | concept h =>
      obtain rfl := h rfl
      exact .refl _
    | type => exact .refl _
  | @neq v w h =>
    obtain rfl := List.mem_singleton.1 hpairs
    have hvw : f v = w := hf _ List.mem_cons_self
    rw [rename, hvw]
    exact .refl _

end AtomKind

/-- The substitution sends the variables of the one atom one-to-one to those of the other, and so
turns the one into the other, but for the order of players. -/
structure Substitution.Renames (s : Substitution) (child parent : Atom) : Prop where
  oneToOne : s.OneToOne
  mem_keys : ∀ v, v ∈ s.keys ↔ v ∈ child.vars
  mem_values : ∀ v, v ∈ s.values ↔ v ∈ parent.vars
  var : s.image child.var = parent.var
  kind : (child.kind.rename s.image).EqUpToOrder parent.kind

namespace Atom

variable {s : Substitution} {child parent : Atom}

theorem mem_vars {a : Atom} {v : Variable} : v ∈ a.vars ↔ v ∈ a.var :: a.kind.mentions := by
  rw [vars, List.mem_eraseDups]

theorem mem_vars_of_mem_renamed {a : Atom} {v : Variable} (h : v ∈ a.renamed) : v ∈ a.vars := by
  rw [mem_vars]
  rcases List.mem_cons.1 h with rfl | h
  · exact List.mem_cons_self
  · apply List.mem_cons_of_mem
    generalize a.kind = k at h ⊢
    cases k with
    | isa type direct =>
      simp only [AtomKind.numbered, AtomKind.players, List.map_nil, List.append_nil] at h
      split at h
      · cases h
      · exact h
    | sub superType direct =>
      simp only [AtomKind.numbered, AtomKind.players, List.map_nil, List.append_nil] at h
      split at h
      · cases h
      · exact h
    | dataType t => cases h
    | identity i => cases h
    | relation typeVar typeLabel players =>
      rcases List.mem_append.1 h with h | h
      · simp only [AtomKind.numbered] at h
        split at h
        · cases h
        · exact List.mem_append_left _ h
      · exact List.mem_append_right _ h
    | _ => simpa [AtomKind.numbered, AtomKind.mentions, AtomKind.players] using h

/-- The exact unifiers are the one-to-one substitutions among the candidates, if the atoms are
alpha-equivalent. -/
theorem mem_unify_exact :
    s ∈ (child.unify parent .exact).members ↔
      child.kind.compatible parent.kind = true ∧ child.equivalent .alpha parent = true ∧
        s ∈ child.candidates parent .exact ∧ s.OneToOne := by
  rw [unify]
  by_cases hcompatible : child.kind.compatible parent.kind = true
  · by_cases hequivalent : child.equivalent .alpha parent = true
    · simp [hcompatible, hequivalent, Substitution.isBijective_iff]
    · simp [hcompatible, hequivalent, MultiUnifier.mem_nonExistent]
  · simp [hcompatible, MultiUnifier.mem_nonExistent]

theorem mem_candidates {strictness : Strictness} :
    s ∈ child.candidates parent strictness ↔
      ∃ pairs ∈ child.kind.correspondences strictness parent.kind,
        .ofPairs ((child.var, parent.var) :: pairs) = s :=
  List.mem_map

/-- An exact unifier renames the child to the parent. -/
theorem renames_of_mem_unify (hchild : child.kind.TypedByVariable)
    (hparent : parent.kind.TypedByVariable) (hs : s ∈ (child.unify parent .exact).members) :
    s.Renames child parent := by
  obtain ⟨-, hequivalent, hcandidate, hone⟩ := mem_unify_exact.1 hs
  obtain ⟨pairs, hpairs, rfl⟩ := mem_candidates.1 hcandidate
  generalize hsub : Substitution.ofPairs ((child.var, parent.var) :: pairs) = s at hone ⊢
  have hmem (pair : Variable × Variable) :
      pair ∈ s.pairs ↔ pair ∈ (child.var, parent.var) :: pairs := by
    rw [← hsub, Substitution.mem_ofPairs]
  have hf : ∀ pair ∈ (child.var, parent.var) :: pairs, s.image pair.1 = pair.2 := by
    intro pair hpair
    exact hone.image_eq ((hmem pair).2 hpair)
  have hkind : (child.kind.rename s.image).EqUpToOrder parent.kind :=
    AtomKind.eqUpToOrder_of_correspondence (equivalent_iff.1 hequivalent) hchild hparent hpairs
      fun pair hpair => hf pair (List.mem_cons_of_mem _ hpair)
  have hfst := AtomKind.map_fst_perm_of_correspondence hkind hpairs
  have hsnd := AtomKind.map_snd_perm_of_correspondence hkind hpairs
    fun pair hpair => hf pair (List.mem_cons_of_mem _ hpair)
  constructor
  case oneToOne => exact hone
  case mem_keys =>
    intro v
    rw [Substitution.mem_keys, mem_vars, ← (hfst.cons child.var).mem_iff]
    simp [hmem, exists_or]
  case mem_values =>
    intro w
    rw [Substitution.mem_values, mem_vars, ← (hsnd.cons parent.var).mem_iff]
    simp [hmem, exists_or]
  case var => exact hf _ List.mem_cons_self
  case kind => exact hkind

/-- Only what the map does to the variables of the atom counts: as far as these go it is a
permutation of all variables, which leaves positions and roles as they are. -/
theorem equivalent_of_injOn {f : Variable → Variable}
    (hf : ∀ v ∈ child.vars, ∀ w ∈ child.vars, f v = f w → v = w) (hvar : f child.var = parent.var)
    (hkind : (child.kind.rename f).EqUpToOrder parent.kind) :
    child.equivalent .alpha parent = true := by
  obtain ⟨σ, hσ⟩ := Renaming.exists_perm_of_injOn hf
  have hrename : child.RenamesTo .alpha f parent :=
    ⟨hvar, AtomKind.corresponds_of_eqUpToOrder hkind⟩
  have hperm : child.RenamesTo .alpha σ parent :=
    hrename.congr fun v hv => (hσ v (mem_vars_of_mem_renamed hv)).symm
  exact hperm.equivalent σ.injective

theorem equivalent_of_renames (h : s.Renames child parent) :
    child.equivalent .alpha parent = true := by
  refine equivalent_of_injOn ?_ h.var h.kind
  intro v hv w hw hvw
  rw [← h.oneToOne.image_inverse_image ((h.mem_keys v).2 hv), hvw,
    h.oneToOne.image_inverse_image ((h.mem_keys w).2 hw)]

theorem mem_candidates_of_renames (h : s.Renames child parent) :
    s ∈ child.candidates parent .exact := by
  obtain ⟨pairs, hpairs, hf⟩ := AtomKind.exists_correspondence_of_eqUpToOrder h.kind
  have hfst := AtomKind.map_fst_perm_of_correspondence h.kind hpairs
  refine mem_candidates.2 ⟨pairs, hpairs, ?_⟩
  apply Substitution.ext
  rintro ⟨v, w⟩
  have hvars : v ∈ s.keys ↔ v ∈ ((child.var, parent.var) :: pairs).map Prod.fst := by
    rw [h.mem_keys, mem_vars, ← (hfst.cons child.var).mem_iff]
    rfl
  rw [Substitution.mem_ofPairs, h.oneToOne.mem_pairs_iff, hvars]
  constructor
  · intro hvw
    refine ⟨List.mem_map_of_mem hvw, ?_⟩
    rcases List.mem_cons.1 hvw with heq | hvw
    · obtain ⟨rfl, rfl⟩ := Prod.mk.inj heq
      exact h.var
    · exact hf _ hvw
  · rintro ⟨hv, rfl⟩
    obtain ⟨pair, hpair, rfl⟩ := List.mem_map.1 hv
    have himage : s.image pair.1 = pair.2 := by
      rcases List.mem_cons.1 hpair with rfl | hpair
      · exact h.var
      · exact hf _ hpair
    rw [himage]
    exact hpair

theorem mem_unify_of_renames (h : s.Renames child parent) :
    s ∈ (child.unify parent .exact).members :=
  mem_unify_exact.2 ⟨AtomKind.compatible_of_corresponds (AtomKind.corresponds_of_eqUpToOrder h.kind),
    equivalent_of_renames h, mem_candidates_of_renames h, h.oneToOne⟩

end Atom

theorem Substitution.Renames.inverse {s : Substitution} {child parent : Atom}
    (h : s.Renames child parent) : s.inverse.Renames parent child := by
  have hback : ∀ v ∈ child.vars, s.inverse.image (s.image v) = v :=
    fun v hv => h.oneToOne.image_inverse_image ((h.mem_keys v).2 hv)
  constructor
  case oneToOne => exact h.oneToOne.inverse
  case mem_keys =>
    intro v
    rw [← h.mem_values v, Substitution.mem_values, Substitution.mem_keys]
    simp
  case mem_values =>
    intro v
    rw [← h.mem_keys v, Substitution.mem_values, Substitution.mem_keys]
    simp
  case var =>
    rw [← h.var]
    exact hback _ (Atom.mem_vars.2 List.mem_cons_self)
  case kind =>
    have hkind : (child.kind.rename s.image).rename s.inverse.image = child.kind := by
      rw [AtomKind.rename_rename]
      apply AtomKind.rename_eq_self
      intro v hv
      exact hback v (Atom.mem_vars.2 (List.mem_cons_of_mem _ hv))
    have hrename := h.kind.symm.rename s.inverse.image
    rw [hkind] at hrename
    exact hrename

/-- Sends each variable of a list to itself. -/
def Substitution.keeping (vars : List Variable) : Substitution := .ofPairs (vars.map fun v => (v, v))

theorem Substitution.keeping_renames (a : Atom) : (keeping a.vars).Renames a a := by
  have hpairs (v w : Variable) : (v, w) ∈ (keeping a.vars).pairs ↔ v ∈ a.vars ∧ v = w := by
    simp only [keeping, mem_ofPairs, List.mem_map, Prod.mk.injEq]
    grind
  have hone : (keeping a.vars).OneToOne := by
    rintro ⟨v, v'⟩ hv ⟨w, w'⟩ hw
    rw [hpairs] at hv hw
    rw [← hv.2, ← hw.2]
  have himage : ∀ v ∈ a.vars, (keeping a.vars).image v = v :=
    fun v hv => hone.image_eq ((hpairs v v).2 ⟨hv, rfl⟩)
  constructor
  case oneToOne => exact hone
  case mem_keys =>
    intro v
    simp [Substitution.mem_keys, hpairs]
  case mem_values =>
    intro v
    simp [mem_values, hpairs]
  case var => exact himage _ (Atom.mem_vars.2 List.mem_cons_self)
  case kind =>
    have hkind : a.kind.rename (keeping a.vars).image = a.kind := by
      apply AtomKind.rename_eq_self
      intro v hv
      exact himage v (Atom.mem_vars.2 (List.mem_cons_of_mem _ hv))
    rw [hkind]
    exact .refl _

namespace Atom

/-- The exact unifiers are exactly the renamings. -/
theorem unify_exact_renamings (child parent : Atom) (hchild : child.kind.TypedByVariable)
    (hparent : parent.kind.TypedByVariable) :
    (∀ u : Unifier, u ∈ (child.unify parent .exact).toList ↔
        ∃ s : Substitution, u = .mapping s ∧ s.Renames child parent) ∧
      .mapping (.keeping child.vars) ∈ (child.unify child .exact).toList ∧
      (child.unify parent .exact).inverse = parent.unify child .exact := by
  refine ⟨?_, ?_, ?_⟩
  · intro u
    rw [MultiUnifier.mem_toList]
    constructor
    · rintro ⟨s, hs, rfl⟩
      exact ⟨s, rfl, renames_of_mem_unify hchild hparent hs⟩
    · rintro ⟨s, rfl, hs⟩
      exact ⟨s, mem_unify_of_renames hs, rfl⟩
  · exact MultiUnifier.mem_toList.2
      ⟨_, mem_unify_of_renames (Substitution.keeping_renames child), rfl⟩
  · apply MultiUnifier.ext
    intro s
    rw [MultiUnifier.mem_inverse]
    constructor
    · rintro ⟨t, ht, rfl⟩
      exact mem_unify_of_renames (renames_of_mem_unify hchild hparent ht).inverse
    · intro hs
      have hrenames := renames_of_mem_unify hparent hchild hs
      exact ⟨s.inverse, mem_unify_of_renames hrenames.inverse, s.inverse_inverse⟩

/-- Friends in either role, one of whom plays a further role: the variable of the type is shared, and
two players can change places. -/
theorem unify_exact_renamings_friends :
    let friend : Option Label := some ⟨"friend"⟩
    let child : Atom := ⟨.named "r", .about (.named "r"), ⟨0⟩,
      .relation (some (.generated 0)) (some ⟨"friendship"⟩)
        [⟨friend, .named "x"⟩, ⟨none, .named "r"⟩, ⟨friend, .named "y"⟩]⟩
    let parent : Atom := ⟨.named "s", .about (.named "s"), ⟨1⟩,
      .relation (some (.named "t")) (some ⟨"friendship"⟩)
        [⟨none, .named "s"⟩, ⟨friend, .named "y"⟩, ⟨friend, .named "x"⟩]⟩
    child.kind.TypedByVariable ∧ parent.kind.TypedByVariable ∧
      (child.unify parent .exact).size = 2 ∧
      (∀ u : Unifier, u ∈ (child.unify parent .exact).toList ↔
        ∃ s : Substitution, u = .mapping s ∧ s.Renames child parent) ∧
      .mapping (.keeping child.vars) ∈ (child.unify child .exact).toList ∧
      (child.unify parent .exact).inverse = parent.unify child .exact := by
  intro friend child parent
  have hchild : child.kind.TypedByVariable := fun _ => rfl
  have hparent : parent.kind.TypedByVariable := fun _ => rfl
  exact ⟨hchild, hparent, by cbv, unify_exact_renamings child parent hchild hparent⟩

end Atom

end GraphQuery
