import GraphQuery.Proofs.Collection.Lists
import Mathlib.Data.List.Forall2

/-!
# Lists whose members can be paired

The members of two lists can be paired so that a relation holds within each pair, in whatever order
they stand. Pairings are made part by part, along maps and along other pairings.
-/

namespace GraphQuery

variable {α β γ δ : Type}

/-- The members of two lists can be paired so that each is related to its counterpart. -/
def PairedUp (r : α → β → Prop) (xs : List α) (ys : List β) : Prop :=
  ∃ zs : List β, zs.Perm ys ∧ List.Forall₂ r xs zs

namespace PairedUp

variable {r : α → β → Prop} {xs xs' : List α} {ys ys' : List β}

theorem of_forall₂ (h : List.Forall₂ r xs ys) : PairedUp r xs ys := ⟨ys, .refl _, h⟩

theorem nil : PairedUp r [] [] := of_forall₂ .nil

theorem singleton {x : α} {y : β} (h : r x y) : PairedUp r [x] [y] := of_forall₂ (.cons h .nil)

theorem perm_left (h : PairedUp r xs ys) (hperm : xs.Perm xs') : PairedUp r xs' ys := by
  obtain ⟨zs, hzs, hpairs⟩ := h
  obtain ⟨zs', hpairs', hzs'⟩ := List.perm_comp_forall₂ hperm.symm hpairs
  exact ⟨zs', hzs'.trans hzs, hpairs'⟩

theorem perm_right (h : PairedUp r xs ys) (hperm : ys.Perm ys') : PairedUp r xs ys' := by
  obtain ⟨zs, hzs, hpairs⟩ := h
  exact ⟨zs, hzs.trans hperm, hpairs⟩

theorem mono {s : α → β → Prop} (h : PairedUp r xs ys)
    (hrs : ∀ x ∈ xs, ∀ y ∈ ys, r x y → s x y) : PairedUp s xs ys := by
  obtain ⟨zs, hzs, hpairs⟩ := h
  refine ⟨zs, hzs, ?_⟩
  rw [List.forall₂_iff_zip] at hpairs ⊢
  refine ⟨hpairs.1, ?_⟩
  intro x y hxy
  exact hrs x (List.of_mem_zip hxy).1 y (hzs.mem_iff.1 (List.of_mem_zip hxy).2) (hpairs.2 hxy)

theorem exists_right (h : PairedUp r xs ys) {x : α} (hx : x ∈ xs) : ∃ y ∈ ys, r x y := by
  obtain ⟨zs, hzs, hpairs⟩ := h
  obtain ⟨z, hz, hxz⟩ := exists_of_forall₂ hpairs.flip hx
  exact ⟨z, hzs.mem_iff.1 hz, hxz⟩

theorem symm {s : β → α → Prop} (h : PairedUp r xs ys) (hrs : ∀ x y, r x y → s y x) :
    PairedUp s ys xs := by
  obtain ⟨zs, hzs, hpairs⟩ := h
  have hback : List.Forall₂ s zs xs := (hpairs.imp fun x y hxy => hrs x y hxy).flip
  obtain ⟨ws, hws, hperm⟩ := List.perm_comp_forall₂ hzs.symm hback
  exact ⟨ws, hperm, hws⟩

theorem trans {zs : List γ} {s : β → γ → Prop} {q : α → γ → Prop} (h : PairedUp r xs ys)
    (k : PairedUp s ys zs) (hq : ∀ x y z, r x y → s y z → q x z) : PairedUp q xs zs := by
  obtain ⟨ys', hys, hpairs⟩ := h
  obtain ⟨zs', hzs, kpairs⟩ := k
  obtain ⟨ws, hws, hperm⟩ := List.perm_comp_forall₂ hys kpairs
  exact ⟨ws, hperm.trans hzs, forall₂_comp hq hpairs hws⟩

theorem append (h : PairedUp r xs ys) (h' : PairedUp r xs' ys') :
    PairedUp r (xs ++ xs') (ys ++ ys') := by
  obtain ⟨zs, hzs, hpairs⟩ := h
  obtain ⟨zs', hzs', hpairs'⟩ := h'
  exact ⟨zs ++ zs', hzs.append hzs', List.rel_append hpairs hpairs'⟩

theorem flatMap {s : γ → δ → Prop} {f : α → List γ} {g : β → List δ}
    (h : PairedUp (fun x y => PairedUp s (f x) (g y)) xs ys) :
    PairedUp s (xs.flatMap f) (ys.flatMap g) := by
  obtain ⟨zs, hzs, hpairs⟩ := h
  refine perm_right ?_ (hzs.flatMap_right g)
  clear hzs
  induction hpairs with
  | nil => exact nil
  | cons hxy _ ih => exact hxy.append ih

theorem eq_iff {xs ys : List α} : PairedUp Eq xs ys ↔ xs.Perm ys := by
  constructor
  · rintro ⟨zs, hzs, hpairs⟩
    rw [List.forall₂_eq_eq_eq] at hpairs
    exact hpairs ▸ hzs
  · intro h
    exact ⟨xs, h, List.forall₂_same.2 fun _ _ => rfl⟩

theorem map_left_iff {s : γ → β → Prop} {f : α → γ} :
    PairedUp s (xs.map f) ys ↔ PairedUp (fun x y => s (f x) y) xs ys := by
  simp only [PairedUp, List.forall₂_map_left_iff]

theorem map_right_iff {s : α → δ → Prop} {g : β → δ} :
    PairedUp s xs (ys.map g) ↔ PairedUp (fun x y => s x (g y)) xs ys := by
  constructor
  · rintro ⟨zs, hzs, hpairs⟩
    -- The order in which the images stand is one in which the members can stand.
    have himages : List.Forall₂ (fun z y => z = g y) (ys.map g) ys :=
      List.forall₂_map_left_iff.2 (List.forall₂_same.2 fun _ _ => rfl)
    obtain ⟨ws, hws, hperm⟩ := List.perm_comp_forall₂ hzs himages
    exact ⟨ws, hperm, forall₂_comp (fun _ _ _ hxz hzw => hzw ▸ hxz) hpairs hws⟩
  · rintro ⟨zs, hzs, hpairs⟩
    exact ⟨zs.map g, hzs.map g, List.forall₂_map_right_iff.2 hpairs⟩

theorem map_iff {s : γ → δ → Prop} {f : α → γ} {g : β → δ} :
    PairedUp s (xs.map f) (ys.map g) ↔ PairedUp (fun x y => s (f x) (g y)) xs ys :=
  map_left_iff.trans map_right_iff

/-- Lists without repeated keys are paired when each member of either is related to one of the other
that has its key. -/
theorem of_nodup_keys {f : α → γ} {g : β → γ} (hxs : (xs.map f).Nodup) (hys : (ys.map g).Nodup)
    (hkey : ∀ x y, r x y → f x = g y) (hright : ∀ x ∈ xs, ∃ y ∈ ys, r x y)
    (hleft : ∀ y ∈ ys, ∃ x ∈ xs, r x y) : PairedUp r xs ys := by
  have hkeys : (xs.map f).Perm (ys.map g) := by
    rw [List.perm_ext_iff_of_nodup hxs hys]
    intro k
    constructor
    · intro hk
      obtain ⟨x, hx, rfl⟩ := List.mem_map.1 hk
      obtain ⟨y, hy, hxy⟩ := hright x hx
      exact List.mem_map.2 ⟨y, hy, (hkey x y hxy).symm⟩
    · intro hk
      obtain ⟨y, hy, rfl⟩ := List.mem_map.1 hk
      obtain ⟨x, hx, hxy⟩ := hleft y hy
      exact List.mem_map.2 ⟨x, hx, hkey x y hxy⟩
  apply (map_iff.1 (eq_iff.2 hkeys)).mono
  intro x hx y hy heq
  obtain ⟨y', hy', hxy'⟩ := hright x hx
  rwa [List.inj_on_of_nodup_map hys hy hy' (heq.symm.trans (hkey x y' hxy'))]

theorem filter {p : α → Bool} {q : β → Bool} (h : PairedUp r xs ys)
    (hpq : ∀ x y, r x y → p x = q y) : PairedUp r (xs.filter p) (ys.filter q) := by
  obtain ⟨zs, hzs, hpairs⟩ := h
  refine ⟨zs.filter q, hzs.filter q, ?_⟩
  clear hzs
  induction hpairs with
  | nil => exact .nil
  | cons hxy _ ih =>
    rw [List.filter_cons, List.filter_cons, hpq _ _ hxy]
    split
    · exact .cons hxy ih
    · exact ih

theorem filterMap {s : γ → δ → Prop} {f : α → Option γ} {g : β → Option δ}
    (h : PairedUp (fun x y => Option.Rel s (f x) (g y)) xs ys) :
    PairedUp s (xs.filterMap f) (ys.filterMap g) := by
  rw [List.filterMap_eq_flatMap_toList, List.filterMap_eq_flatMap_toList]
  apply flatMap
  apply h.mono
  intro x _ y _ hxy
  generalize f x = o at hxy ⊢
  generalize g y = o' at hxy ⊢
  cases hxy with
  | none => exact nil
  | some hxy => exact singleton hxy

/-- The members for which functions give something are paired if what they give is. -/
theorem of_filterMap {s : γ → δ → Prop} {f : α → Option γ} {g : β → Option δ}
    (h : PairedUp s (xs.filterMap f) (ys.filterMap g)) :
    PairedUp (fun x y => Option.Rel s (f x) (g y)) (xs.filter fun x => (f x).isSome)
      (ys.filter fun y => (g y).isSome) := by
  have hsome {ι κ : Type} (k : ι → Option κ) (zs : List ι) :
      (zs.filter fun z => (k z).isSome).map k = (zs.filterMap k).map some := by
    induction zs with
    | nil => rfl
    | cons z zs ih =>
      cases hz : k z with
      | none => simpa [hz] using ih
      | some c => simpa [hz] using ih
  rw [← map_iff, hsome, hsome, map_iff]
  exact h.mono fun _ _ _ _ hxy => .some hxy

end PairedUp

end GraphQuery
