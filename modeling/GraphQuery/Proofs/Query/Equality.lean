import GraphQuery.Proofs.Atom.Invariance
import GraphQuery.Proofs.Atom.Signature
import GraphQuery.Proofs.Query.Equivalence
import GraphQuery.Proofs.Statement.Equality

/-!
# Equal atoms

Equality reads all variables of an atom as they are, but for those of the players: there one
generated variable equals any other. Keys and queries do tell in which places one generated variable
stands. So equal atoms are equivalent just when their players are renamings of each other, and the
queries of equal atoms just when such a renaming leaves alone what the keys number.
-/

namespace GraphQuery

namespace RolePlayer

variable {as bs : List RolePlayer} {kept : List Variable}

def namedPlayers (as : List RolePlayer) : List Variable :=
  (as.map (·.player)).filter (·.isNamed)

/-- The generated variables that play roles, as often as they do. -/
def generatedPlayers (as : List RolePlayer) : List Variable :=
  (as.map (·.player)).filter (!·.isNamed)

theorem namedPlayers_cons (rp : RolePlayer) : namedPlayers (rp :: as) =
    if rp.player.isNamed then rp.player :: namedPlayers as else namedPlayers as :=
  List.filter_cons

theorem generatedPlayers_cons (rp : RolePlayer) : generatedPlayers (rp :: as) =
    if rp.player.isNamed then generatedPlayers as else rp.player :: generatedPlayers as := by
  rw [generatedPlayers, List.map_cons, List.filter_cons]
  cases rp.player.isNamed <;> rfl

/-- Some renaming of the variables that keeps the named players and what else is to be kept makes
the players of one list those of another. -/
def RenameKeeping (kept : List Variable) (as bs : List RolePlayer) : Prop :=
  ∃ σ : Equiv.Perm Variable, (∀ v ∈ kept ++ namedPlayers as, σ v = v) ∧ RenameTo σ as bs

theorem map_shape_eq_of_beq (h : (as == bs) = true) : as.map shape = bs.map shape := by
  induction as generalizing bs with
  | nil =>
    cases bs with
    | nil => rfl
    | cons b bs => cases h
  | cons a as ih =>
    cases bs with
    | nil => cases h
    | cons b bs =>
      rw [List.cons_beq_cons, Bool.and_eq_true, beq_iff] at h
      rw [List.map_cons, List.map_cons, h.1, ih h.2]

/-- The shapes of the players tell which roles a named variable has. -/
theorem rolesOf_eq_of_map_shape_eq (h : as.map shape = bs.map shape) {v : Variable}
    (hv : v.isNamed = true) : rolesOf as v = rolesOf bs v := by
  have hroles (players : List RolePlayer) : (players.filter (·.player = v)).map (·.role) =
      ((players.map shape).filter (·.2 = v.name?)).map Prod.fst := by
    rw [List.filter_map, List.map_map]
    congr 1
    apply List.filter_congr
    intro rp _
    apply decide_eq_decide.2
    constructor
    · rintro rfl
      rfl
    · intro hname
      exact (Variable.eq_of_alike (Variable.alike_iff.2 hname.symm) hv).symm
  rw [rolesOf, rolesOf, hroles, hroles, h]

/-- There is a renaming that keeps some variables just when it has to move none of them for the sake
of its roles. -/
theorem exists_renameTo_keeping_iff :
    (∃ σ : Equiv.Perm Variable, (∀ v ∈ kept, σ v = v) ∧ RenameTo σ as bs) ↔
      signature as = signature bs ∧ ∀ v ∈ kept, rolesOf as v = rolesOf bs v := by
  let pairs := kept.map fun v => (v, v)
  have hone : ∀ p ∈ pairs, ∀ q ∈ pairs, p.1 = q.1 ↔ p.2 = q.2 := by
    simp [pairs]
  constructor
  · rintro ⟨σ, hkept, hσ⟩
    refine ⟨hσ.signature_eq σ.injective, ?_⟩
    intro v hv
    rw [← renameTo_iff_rolesOf.1 hσ, hkept v hv]
  · rintro ⟨hsignature, hroles⟩
    have hpairs : ∀ p ∈ pairs, rolesOf as p.1 = rolesOf bs p.2 := by
      simpa [pairs] using hroles
    obtain ⟨σ, hσ, hrename⟩ := (exists_renameTo_iff hsignature hone).2 hpairs
    exact ⟨σ, by simpa [pairs] using hσ, hrename⟩

/-- Named players of equal lists have the same roles in both, so only the others can be in the way
of a renaming. -/
theorem renameKeeping_iff (h : (as == bs) = true) :
    RenameKeeping kept as bs ↔
      signature as = signature bs ∧ ∀ v ∈ kept, rolesOf as v = rolesOf bs v := by
  rw [RenameKeeping, exists_renameTo_keeping_iff]
  apply and_congr_right
  intro _
  constructor
  · intro hroles v hv
    exact hroles v (List.mem_append_left _ hv)
  · intro hroles v hv
    rcases List.mem_append.1 hv with hv | hv
    · exact hroles v hv
    · exact rolesOf_eq_of_map_shape_eq (map_shape_eq_of_beq h) (List.mem_filter.1 hv).2

theorem renameKeeping_nil_iff (h : (as == bs) = true) :
    RenameKeeping [] as bs ↔ signature as = signature bs := by
  rw [renameKeeping_iff h]
  exact and_iff_left fun _ hv => absurd hv List.not_mem_nil

/-- Players of one shape become each other when each generated player becomes the one in its
place. -/
theorem exists_pairs_of_map_shape_eq (h : as.map shape = bs.map shape) :
    ∃ pairs : List (Variable × Variable), pairs.map Prod.fst = generatedPlayers as ∧
      pairs.map Prod.snd = generatedPlayers bs ∧
      ∀ f : Variable → Variable, (∀ v ∈ namedPlayers as, f v = v) →
        (∀ pair ∈ pairs, f pair.1 = pair.2) → as.map (rename f) = bs := by
  induction as generalizing bs with
  | nil =>
    obtain rfl : bs = [] := List.map_eq_nil_iff.1 h.symm
    exact ⟨[], rfl, rfl, fun _ _ _ => rfl⟩
  | cons a as ih =>
    obtain ⟨role, v⟩ := a
    cases bs with
    | nil => cases h
    | cons b bs =>
      obtain ⟨role', w⟩ := b
      obtain ⟨hshape, hshapes⟩ := List.cons.inj h
      obtain ⟨rfl, hname⟩ := Prod.mk.inj hshape
      have halike : v.alike w = true := Variable.alike_iff.2 hname
      have hsort := Variable.isNamed_eq_of_alike halike
      obtain ⟨pairs, hfst, hsnd, hpairs⟩ := ih hshapes
      simp only [namedPlayers_cons, generatedPlayers_cons, ← hsort, List.map_cons]
      cases hv : v.isNamed with
      | true =>
        obtain rfl := Variable.eq_of_alike halike hv
        refine ⟨pairs, hfst, hsnd, ?_⟩
        intro f hnamed hf
        obtain ⟨hfv, hnamed⟩ := List.forall_mem_cons.1 hnamed
        rw [rename, hfv, hpairs f hnamed hf]
      | false =>
        refine ⟨(v, w) :: pairs, congrArg (v :: ·) hfst, congrArg (w :: ·) hsnd, ?_⟩
        intro f hnamed hf
        obtain ⟨hfv, hf⟩ := List.forall_mem_cons.1 hf
        rw [rename, hfv, hpairs f hnamed hf]

/-- Equal lists can be renamed to each other if no generated player of either stands at a second
place, be it among the players or among the variables that are kept. -/
theorem renameKeeping_of_nodup (h : (as == bs) = true) (has : (generatedPlayers as).Nodup)
    (hbs : (generatedPlayers bs).Nodup) (hkept : ∀ v ∈ kept, v ∉ generatedPlayers as)
    (hkept' : ∀ v ∈ kept, v ∉ generatedPlayers bs) : RenameKeeping kept as bs := by
  obtain ⟨pairs, hfst, hsnd, hpairs⟩ := exists_pairs_of_map_shape_eq (map_shape_eq_of_beq h)
  rw [← hfst] at has hkept
  rw [← hsnd] at hbs hkept'
  have hnew : ∀ v ∈ kept ++ namedPlayers as,
      v ∉ pairs.map Prod.fst ∧ v ∉ pairs.map Prod.snd := by
    intro v hv
    rcases List.mem_append.1 hv with hv | hv
    · exact ⟨hkept v hv, hkept' v hv⟩
    · have hnamed : v.isNamed = true := (List.mem_filter.1 hv).2
      rw [hfst, hsnd]
      simp [generatedPlayers, hnamed]
  obtain ⟨σ, hσ, hσpairs⟩ := Renaming.exists_perm_extending (f := id)
    (fun _ _ _ _ heq => heq) has hbs hnew
  refine ⟨σ, hσ, ?_⟩
  rw [RenameTo, hpairs σ (fun v hv => hσ v (List.mem_append_right _ hv)) hσpairs]

end RolePlayer

/-- Kinds that are equal say the same of the same variables, but for generated players. -/
theorem AtomKind.corresponds_of_beq (equivalence : Equivalence) {a b : AtomKind}
    (h : (a == b) = true) :
    a.Corresponds equivalence (fun v w => id v = w) (fun as bs => (as == bs) = true) b := by
  change a.alike b = true at h
  cases a with
  | isa type direct =>
    cases b with
    | isa type' direct' =>
      simp only [alike, Bool.and_eq_true, decide_eq_true_iff] at h
      obtain ⟨⟨hvar, hlabel⟩, rfl⟩ := h
      exact .isa ⟨hlabel, fun _ => hvar⟩
    | _ => cases h
  | sub superType direct =>
    cases b with
    | sub superType' direct' =>
      simp only [alike, Bool.and_eq_true, decide_eq_true_iff] at h
      obtain ⟨⟨hvar, hlabel⟩, rfl⟩ := h
      exact .sub ⟨hlabel, fun _ => hvar⟩
    | _ => cases h
  | dataType t =>
    cases b with
    | dataType t' =>
      obtain rfl := of_decide_eq_true h
      exact .dataType
    | _ => cases h
  | resource l owned predicate =>
    cases b with
    | resource l' owned' predicate' =>
      simp only [alike, Bool.and_eq_true, decide_eq_true_iff] at h
      obtain ⟨⟨rfl, howned⟩, rfl⟩ := h
      exact .resource howned (optionRel_refl (.refl fun _ => rfl) predicate)
    | _ => cases h
  | relation typeVar l players =>
    cases b with
    | relation typeVar' l' players' =>
      simp only [alike, Bool.and_eq_true, decide_eq_true_iff] at h
      obtain ⟨⟨rfl, rfl⟩, hplayers⟩ := h
      exact .relation (fun _ => optionRel_refl (fun _ => rfl) typeVar) hplayers
    | _ => cases h
  | value predicate =>
    cases b with
    | value predicate' =>
      obtain rfl := of_decide_eq_true h
      exact .value (.refl (fun _ => rfl) predicate)
    | _ => cases h
  | identity i =>
    cases b with
    | identity j =>
      obtain rfl := of_decide_eq_true h
      exact .identity (.refl i)
    | _ => cases h
  | neq other =>
    cases b with
    | neq other' => exact .neq (of_decide_eq_true h)
    | _ => cases h

/-- Queries of one atom each are equivalent when the one atom can be renamed to the other. -/
theorem Query.equivalent_singleton_iff {equivalence : Equivalence} {a b : Atom} {id id' : QueryId}
    {c d : Conjunction} :
    (ofAtoms id c [a]).equivalent equivalence (ofAtoms id' d [b]) = true ↔
      ∃ σ : Equiv.Perm Variable, a.RenamesTo equivalence σ b := by
  constructor
  · intro h
    obtain ⟨σ, atoms, hperm, hpairs⟩ := exists_perm_of_equivalent h
    obtain rfl := List.perm_singleton.1 hperm
    obtain ⟨hab, -⟩ := List.forall₂_cons.1 hpairs
    exact ⟨σ, hab⟩
  · rintro ⟨σ, hab⟩
    have hpaired : (ofAtoms id c [a]).RenamesTo equivalence σ (ofAtoms id' d [b]) :=
      ⟨_, .refl _, .cons hab .nil⟩
    exact hpaired.equivalent σ.injective

namespace Atom

variable {equivalence : Equivalence} {a b : Atom}

theorem beq_iff : (a == b) = true ↔
    a.var = b.var ∧ (a.source == b.source) = true ∧ a.parent = b.parent ∧
      (a.kind == b.kind) = true := by
  change (decide (a.var = b.var) && a.source == b.source && decide (a.parent = b.parent) &&
    a.kind == b.kind) = true ↔ _
  simp only [Bool.and_eq_true, decide_eq_true_iff, and_assoc]

theorem beq_players (h : (a == b) = true) : (a.kind.players == b.kind.players) = true :=
  (AtomKind.corresponds_of_beq .alpha (beq_iff.1 h).2.2.2).players rfl

theorem slots_eq_of_beq (h : (a == b) = true) : a.slots = b.slots := by
  obtain ⟨hvar, -, -, hkind⟩ := beq_iff.1 h
  have hnumbered := (AtomKind.corresponds_of_beq .alpha hkind).numbered_eq_map
  rw [slots, slots, hvar, hnumbered, List.map_id]

theorem equivalent_iff_of_beq (h : (a == b) = true) :
    a.equivalent equivalence b = true ↔
      RolePlayer.signature a.kind.players = RolePlayer.signature b.kind.players := by
  rw [equivalent_iff]
  constructor
  · intro hkinds
    exact hkinds.players rfl
  · intro hsignature
    apply (AtomKind.corresponds_of_beq equivalence (beq_iff.1 h).2.2.2).imp
    · rintro v _ w _ rfl
      rw [slots_eq_of_beq h, id]
    · intro _
      exact hsignature

/-- Equal atoms are renamed to each other by what keeps the variables that the key numbers. -/
theorem exists_renamesTo_iff_of_beq (h : (a == b) = true) :
    (∃ σ : Equiv.Perm Variable, a.RenamesTo equivalence σ b) ↔
      RolePlayer.RenameKeeping a.slots a.kind.players b.kind.players := by
  have hslots := slots_eq_of_beq h
  constructor
  · rintro ⟨σ, hσ⟩
    apply (RolePlayer.renameKeeping_iff (beq_players h)).2
    apply RolePlayer.exists_renameTo_keeping_iff.1
    refine ⟨σ, ?_, hσ.renameTo_players⟩
    have hmap : a.slots.map σ = a.slots.map id := by
      rw [← hσ.slots_eq_map σ.injective, ← hslots, List.map_id]
    exact List.map_inj_left.1 hmap
  · rintro ⟨σ, hkept, hplayers⟩
    refine ⟨σ, renamesTo_of_equivalent ?_ ?_ hplayers⟩
    · exact (equivalent_iff_of_beq h).2 (hplayers.signature_eq σ.injective)
    · have hmap : a.slots.map σ = b.slots := by
        rw [← hslots, ← a.slots.map_id, List.map_map]
        exact List.map_inj_left.2 fun v hv => hkept v (List.mem_append_left _ hv)
      rw [← hmap]
      intro pair hpair
      exact eq_of_mem_zip_map hpair

theorem query_equivalent_iff_of_beq (h : (a == b) = true) {id id' : QueryId} {c d : Conjunction} :
    (Query.ofAtoms id c [a]).equivalent equivalence (Query.ofAtoms id' d [b]) = true ↔
      RolePlayer.RenameKeeping a.slots a.kind.players b.kind.players := by
  rw [Query.equivalent_singleton_iff, exists_renamesTo_iff_of_beq h]

/-- No generated player of the atom plays twice or is among the variables that its key numbers. All
atoms but relations are such, as they have no players. -/
def Unshared (a : Atom) : Prop :=
  (RolePlayer.generatedPlayers a.kind.players).Nodup ∧
    ∀ v ∈ a.slots, v ∉ RolePlayer.generatedPlayers a.kind.players

instance (a : Atom) : Decidable a.Unshared := inferInstanceAs (Decidable (_ ∧ _))

/-- How far two equal atoms can be put in each other's place. -/
structure EqualUpToSharing (a b : Atom) : Prop where
  /-- They are equivalent just when their generated players are shared in the same way. -/
  equivalent_iff : ∀ equivalence : Equivalence, a.equivalent equivalence b = true ↔
    RolePlayer.RenameKeeping [] a.kind.players b.kind.players
  /-- If they are equivalent, all that goes by keys is the same for both, hashes included. -/
  sameByKey : ∀ equivalence : Equivalence, a.equivalent equivalence b = true → a.SameByKey b
  /-- Queries that hold nothing else are equivalent just when the generated players are shared in
  the same way with what else the atoms mention. -/
  query_iff : ∀ (equivalence : Equivalence) (id id' : QueryId) (c d : Conjunction),
    (Query.ofAtoms id c [a]).equivalent equivalence (Query.ofAtoms id' d [b]) = true ↔
      RolePlayer.RenameKeeping a.slots a.kind.players b.kind.players
  /-- Where nothing is shared, equality does suffice. -/
  unshared : a.Unshared → b.Unshared → ∀ equivalence : Equivalence,
    a.equivalent equivalence b = true ∧ ∀ (id id' : QueryId) (c d : Conjunction),
      (Query.ofAtoms id c [a]).equivalent equivalence (Query.ofAtoms id' d [b]) = true

theorem equal_upToSharing (h : (a == b) = true) : a.EqualUpToSharing b where
  equivalent_iff equivalence := by
    rw [equivalent_iff_of_beq h, RolePlayer.renameKeeping_nil_iff (beq_players h)]
  sameByKey equivalence hequivalent := by
    apply SameByKey.of_alphaKey
    apply equivalent_alpha_iff.1
    exact (equivalent_iff_of_beq h).2 ((equivalent_iff_of_beq h).1 hequivalent)
  query_iff _ _ _ _ _ := query_equivalent_iff_of_beq h
  unshared ha hb equivalence := by
    have hshared : RolePlayer.RenameKeeping a.slots a.kind.players b.kind.players := by
      apply RolePlayer.renameKeeping_of_nodup (beq_players h) ha.1 hb.1 ha.2
      rw [slots_eq_of_beq h]
      exact hb.2
    have hsignature := ((RolePlayer.renameKeeping_iff (beq_players h)).1 hshared).1
    refine ⟨(equivalent_iff_of_beq h).2 hsignature, ?_⟩
    intro id id' c d
    exact (query_equivalent_iff_of_beq h).2 hshared

/-- Two friends whom the query leaves unnamed change, a third one and the meeting that all of them
attend stay. -/
theorem equal_upToSharing_friends :
    let role : Option Label := some ⟨"friend"⟩
    let friends (v w : Variable) : Atom := ⟨.generated 0, .about (.generated 0), ⟨0⟩,
      .relation (some (.named "t")) none [⟨role, v⟩, ⟨role, .named "x"⟩, ⟨role, w⟩]⟩
    let a := friends (.generated 1) (.generated 2)
    let b := friends (.generated 3) (.generated 1)
    (a == b) = true ∧ a.SameByKey b ∧
      (Query.ofAtoms ⟨0⟩ (.ofList []) [a]).equivalent .alpha (Query.ofAtoms ⟨1⟩ (.ofList []) [b]) =
        true := by
  intro role friends a b
  have hequal : (a == b) = true := by cbv
  have hupTo := equal_upToSharing hequal
  obtain ⟨hequivalent, hquery⟩ := hupTo.unshared (by decide) (by decide) .alpha
  exact ⟨hequal, hupTo.sameByKey .alpha hequivalent, hquery _ _ _ _⟩

/-- Two players of one role are one concept in one atom and may be two in the other; and the one
player of a relation may be the relation itself. -/
theorem equal_without_equivalence :
    let role : Option Label := some ⟨"friend"⟩
    let relation (v : Variable) (players : List RolePlayer) : Atom :=
      ⟨v, .about v, ⟨0⟩, .relation none none players⟩
    let once := relation (.named "r") [⟨role, .generated 0⟩, ⟨role, .generated 1⟩]
    let twice := relation (.named "r") [⟨role, .generated 0⟩, ⟨role, .generated 0⟩]
    let itself := relation (.generated 0) [⟨role, .generated 0⟩]
    let other := relation (.generated 0) [⟨role, .generated 1⟩]
    ((twice == once) = true ∧ twice.equivalent .alpha once = false ∧
      twice.equivalent .structural once = false) ∧
    (itself == other) = true ∧
      (Query.ofAtoms ⟨0⟩ (.ofList []) [itself]).equivalent .alpha
        (Query.ofAtoms ⟨0⟩ (.ofList []) [other]) = false := by
  refine ⟨⟨?_, ?_, ?_⟩, ?_, ?_⟩ <;> cbv

end Atom

end GraphQuery
