import GraphQuery.Proofs.Collection.Lists
import GraphQuery.Unifier.RolePairing
import Mathlib.Data.Fin.Pigeonhole
import Mathlib.Data.Fin.Tuple.Basic
import Mathlib.Data.List.FinRange
import Mathlib.Data.List.Nodup

/-!
# Placements of players

A pairing of players puts each parent on a child of its own. A search that goes by the places of the
children meets every such placement once, in lexicographic order, and the pairings are the pairs of
variables that the placements put to each other.
-/

namespace GraphQuery

namespace RolePlayer

variable {strictness : Strictness} {children parents : List RolePlayer}

/-- Each parent has a child of its own that it can be matched with; for an exact pairing no child is
left over. -/
structure IsPlacement (strictness : Strictness) (children parents : List RolePlayer)
    (f : Fin parents.length → Fin children.length) : Prop where
  injective : Function.Injective f
  matchable : ∀ i, (children.get (f i)).matchable strictness (parents.get i) = true
  exact : strictness = .exact → parents.length = children.length

/-- The variables that a placement puts to each other, in the order of the parents. -/
def pairsOf (children parents : List RolePlayer) (f : Fin parents.length → Fin children.length) :
    List (Variable × Variable) :=
  List.ofFn fun i => ((children.get (f i)).player, (parents.get i).player)

/-- Whether a parent cannot be put on a child: it is in use or the two cannot be matched. -/
def rejects (strictness : Strictness) (children : List RolePlayer) (used : Fin children.length → Bool)
    (parent : RolePlayer) (i : Fin children.length) : Bool :=
  used i || !(children.get i).matchable strictness parent

/-- Every placement of the parents on children that are not in use, the first parent being put on each
child in turn. -/
def placements (strictness : Strictness) (children : List RolePlayer) :
    (Fin children.length → Bool) → (parents : List RolePlayer) →
      List (Fin parents.length → Fin children.length)
  | _, [] => [Fin.elim0]
  | used, parent :: parents =>
    (List.finRange children.length).flatMap fun i =>
      if rejects strictness children used parent i then []
      else (placements strictness children (Function.update used i true) parents).map (Fin.cons i)

variable {used : Fin children.length → Bool}

theorem rejects_eq_false_iff {parent : RolePlayer} {i : Fin children.length} :
    rejects strictness children used parent i = false ↔
      used i = false ∧ (children.get i).matchable strictness parent = true := by
  rw [rejects, Bool.or_eq_false_iff, Bool.not_eq_false']

theorem mem_ite_placements {parent : RolePlayer} {i : Fin children.length}
    {f : Fin (parents.length + 1) → Fin children.length} :
    f ∈ (if rejects strictness children used parent i then []
        else (placements strictness children (Function.update used i true) parents).map (Fin.cons i)) ↔
      rejects strictness children used parent i = false ∧
        ∃ g ∈ placements strictness children (Function.update used i true) parents,
          (Fin.cons i g : Fin (parents.length + 1) → Fin children.length) = f := by
  rw [List.mem_ite_nil_left, List.mem_map, Bool.not_eq_true]

theorem cons_mem_placements {parent : RolePlayer} {i : Fin children.length}
    {f : Fin parents.length → Fin children.length} :
    (Fin.cons i f : Fin (parents.length + 1) → Fin children.length) ∈
        placements strictness children used (parent :: parents) ↔
      rejects strictness children used parent i = false ∧
        f ∈ placements strictness children (Function.update used i true) parents := by
  rw [placements, List.mem_flatMap]
  constructor
  · rintro ⟨j, -, hf⟩
    obtain ⟨hfree, g, hg, hfg⟩ := mem_ite_placements.1 hf
    obtain ⟨rfl, rfl⟩ := Fin.cons_inj.1 hfg
    exact ⟨hfree, hg⟩
  · rintro ⟨hfree, hf⟩
    exact ⟨i, List.mem_finRange i, mem_ite_placements.2 ⟨hfree, f, hf, rfl⟩⟩

theorem forall_update_eq_false {m n : Nat} {used : Fin n → Bool} {i : Fin n} {f : Fin m → Fin n} :
    (∀ j, Function.update used i true (f j) = false) ↔
      i ∉ Set.range f ∧ ∀ j, used (f j) = false := by
  rw [Set.mem_range, not_exists, ← forall_and]
  apply forall_congr'
  intro j
  by_cases hj : f j = i
  · simp [hj]
  · simp [hj]

theorem mem_placements {f : Fin parents.length → Fin children.length} :
    f ∈ placements strictness children used parents ↔
      Function.Injective f ∧ (∀ i, used (f i) = false) ∧
        ∀ i, (children.get (f i)).matchable strictness (parents.get i) = true := by
  induction parents generalizing used with
  | nil =>
    rw [placements, List.mem_singleton]
    exact iff_of_true (funext fun i => i.elim0) ⟨fun i => i.elim0, fun i => i.elim0, fun i => i.elim0⟩
  | cons parent parents ih =>
    obtain ⟨i, g, rfl⟩ := Fin.exists_cons f
    rw [cons_mem_placements, rejects_eq_false_iff, ih, forall_update_eq_false]
    simp only [List.length_cons]
    rw [Fin.cons_injective_iff, Fin.forall_fin_succ, Fin.forall_fin_succ]
    simp only [Fin.cons_zero, Fin.cons_succ, List.get_cons_zero]
    tauto

/-- The placements come in lexicographic order of the places of the children. -/
theorem pairwise_placements :
    (placements strictness children used parents).Pairwise
      fun f g => List.ofFn f < List.ofFn g := by
  induction parents generalizing used with
  | nil => exact List.pairwise_singleton _ _
  | cons parent parents ih =>
    have hcons {i j : Fin children.length} {f g : Fin parents.length → Fin children.length}
        (h : i < j ∨ i = j ∧ List.ofFn f < List.ofFn g) :
        List.ofFn (Fin.cons i f : Fin (parents.length + 1) → Fin children.length) <
          List.ofFn (Fin.cons j g : Fin (parents.length + 1) → Fin children.length) := by
      rw [List.ofFn_cons, List.ofFn_cons, List.cons_lt_cons_iff]
      exact h
    rw [placements, List.pairwise_flatMap]
    refine ⟨?_, (List.pairwise_lt_finRange _).imp ?_⟩
    · intro i _
      split
      · exact .nil
      · rw [List.pairwise_map]
        exact ih.imp fun hfg => hcons (.inr ⟨rfl, hfg⟩)
    · intro i j hij f hf g hg
      obtain ⟨-, f, -, rfl⟩ := mem_ite_placements.1 hf
      obtain ⟨-, g, -, rfl⟩ := mem_ite_placements.1 hg
      exact hcons (.inl hij)

theorem pairsOf_nil (f : Fin 0 → Fin children.length) : pairsOf children [] f = [] :=
  List.ofFn_zero

theorem pairsOf_cons {parent : RolePlayer} (i : Fin children.length)
    (f : Fin parents.length → Fin children.length) :
    pairsOf children (parent :: parents) (Fin.cons i f) =
      ((children.get i).player, parent.player) :: pairsOf children parents f :=
  List.ofFn_succ

section Free

variable {n : Nat} {used : Fin n → Bool}

/-- The places of the children that are not in use. -/
def free (used : Fin n → Bool) : List (Fin n) := (List.finRange n).filter fun i => !used i

theorem nodup_free : (free used).Nodup := (List.nodup_finRange n).filter _

theorem erase_free (i : Fin n) : (free used).erase i = free (Function.update used i true) := by
  rw [nodup_free.erase_eq_filter, free, free, List.filter_filter]
  apply List.filter_congr
  intro j _
  by_cases hij : j = i
  · simp [hij]
  · simp [hij]

end Free

theorem assignments_free_cons (parent : RolePlayer) :
    assignments strictness ((free used).map children.get) (parent :: parents) =
      (List.finRange children.length).flatMap fun i =>
        if rejects strictness children used parent i then []
        else (assignments strictness ((free (Function.update used i true)).map children.get)
          parents).map (((children.get i).player, parent.player) :: ·) := by
  rw [assignments, picks_map, picks_of_nodup nodup_free, List.map_map, List.flatMap_map]
  simp only [Function.comp_apply, erase_free]
  rw [free, flatMap_filter]
  apply List.flatMap_congr
  intro i _
  rw [rejects]
  cases used i with
  | true => rfl
  | false => cases (children.get i).matchable strictness parent <;> rfl

/-- The assignments to what is not in use are the pairs of the placements on it. -/
theorem assignments_eq_map_placements :
    assignments strictness ((free used).map children.get) parents =
      (placements strictness children used parents).map (pairsOf children parents) := by
  induction parents generalizing used with
  | nil => rfl
  | cons parent parents ih =>
    rw [assignments_free_cons, placements, List.map_flatMap]
    apply List.flatMap_congr
    intro i _
    rw [ih]
    split
    · rfl
    · rw [List.map_map, List.map_map]
      exact List.map_congr_left fun f _ => (pairsOf_cons i f).symm

theorem pairings_eq_map_placements (strictness : Strictness) (children parents : List RolePlayer) :
    pairings strictness children parents =
      if sizesFit strictness children parents then
        (placements strictness children (fun _ => false) parents).map (pairsOf children parents)
      else [] := by
  have hfree : free (fun _ : Fin children.length => false) = List.finRange children.length :=
    List.filter_eq_self.2 fun _ _ => rfl
  rw [pairings, ← assignments_eq_map_placements, hfree, List.map_get_finRange]

theorem IsPlacement.sizesFit {f : Fin parents.length → Fin children.length}
    (h : IsPlacement strictness children parents f) :
    RolePlayer.sizesFit strictness children parents = true := by
  cases strictness with
  | exact => exact decide_eq_true (h.exact rfl)
  | rule => exact decide_eq_true (Fin.le_of_injective f h.injective)

theorem isPlacement_iff {f : Fin parents.length → Fin children.length}
    (h : sizesFit strictness children parents = true) :
    IsPlacement strictness children parents f ↔
      f ∈ placements strictness children (fun _ => false) parents := by
  rw [mem_placements]
  constructor
  · exact fun hf => ⟨hf.injective, fun _ => rfl, hf.matchable⟩
  · rintro ⟨hinj, -, hmatch⟩
    refine ⟨hinj, hmatch, ?_⟩
    rintro rfl
    exact of_decide_eq_true h

/-- The pairings are the pairs of all placements, in lexicographic order. -/
theorem exists_placements (strictness : Strictness) (children parents : List RolePlayer) :
    ∃ fs : List (Fin parents.length → Fin children.length),
      fs.Pairwise (fun f g => List.ofFn f < List.ofFn g) ∧
        (∀ f, f ∈ fs ↔ IsPlacement strictness children parents f) ∧
        pairings strictness children parents = fs.map (pairsOf children parents) := by
  rw [pairings_eq_map_placements]
  by_cases h : sizesFit strictness children parents = true
  · rw [if_pos h]
    exact ⟨_, pairwise_placements, fun f => (isPlacement_iff h).symm, rfl⟩
  · rw [if_neg h]
    refine ⟨[], .nil, fun f => ?_, rfl⟩
    exact iff_of_false List.not_mem_nil fun hf => h hf.sizesFit

end RolePlayer

end GraphQuery
