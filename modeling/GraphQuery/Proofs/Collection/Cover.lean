import GraphQuery.Proofs.Collection.Distinct

/-!
# Lists that cover each other

Two lists cover each other when each member of the one is related to some member of the other, in
whatever order and however often. Collections made from lists are equal exactly when the lists cover
each other by `==`.
-/

namespace GraphQuery

variable {α β γ δ : Type}

/-- Each member of either list is related to some member of the other. -/
def Covers (r : α → β → Prop) (xs : List α) (ys : List β) : Prop :=
  (∀ x ∈ xs, ∃ y ∈ ys, r x y) ∧ ∀ y ∈ ys, ∃ x ∈ xs, r x y

namespace Covers

variable {r : α → β → Prop} {xs xs' : List α} {ys ys' : List β}

theorem nil : Covers r [] [] := ⟨nofun, nofun⟩

theorem singleton {x : α} {y : β} (h : r x y) : Covers r [x] [y] := by
  constructor
  · simpa using h
  · simpa using h

/-- Lists with the same members cover each other. -/
theorem of_mem_iff {r : α → α → Prop} (hr : ∀ x, r x x) {xs ys : List α}
    (h : ∀ x, x ∈ xs ↔ x ∈ ys) : Covers r xs ys :=
  ⟨fun x hx => ⟨x, (h x).1 hx, hr x⟩, fun y hy => ⟨y, (h y).2 hy, hr y⟩⟩

theorem trans {zs : List γ} {s : β → γ → Prop} {q : α → γ → Prop} (h : Covers r xs ys)
    (k : Covers s ys zs) (hq : ∀ x y z, r x y → s y z → q x z) : Covers q xs zs := by
  constructor
  · intro x hx
    obtain ⟨y, hy, hxy⟩ := h.1 x hx
    obtain ⟨z, hz, hyz⟩ := k.1 y hy
    exact ⟨z, hz, hq x y z hxy hyz⟩
  · intro z hz
    obtain ⟨y, hy, hyz⟩ := k.2 z hz
    obtain ⟨x, hx, hxy⟩ := h.2 y hy
    exact ⟨x, hx, hq x y z hxy hyz⟩

theorem flip {s : β → α → Prop} (h : Covers r xs ys) (hrs : ∀ x y, r x y → s y x) :
    Covers s ys xs := by
  constructor
  · intro y hy
    obtain ⟨x, hx, hxy⟩ := h.2 y hy
    exact ⟨x, hx, hrs x y hxy⟩
  · intro x hx
    obtain ⟨y, hy, hxy⟩ := h.1 x hx
    exact ⟨y, hy, hrs x y hxy⟩

theorem append (h : Covers r xs ys) (h' : Covers r xs' ys') : Covers r (xs ++ xs') (ys ++ ys') := by
  constructor
  · intro x hx
    rcases List.mem_append.1 hx with hx | hx
    · obtain ⟨y, hy, hxy⟩ := h.1 x hx
      exact ⟨y, List.mem_append_left _ hy, hxy⟩
    · obtain ⟨y, hy, hxy⟩ := h'.1 x hx
      exact ⟨y, List.mem_append_right _ hy, hxy⟩
  · intro y hy
    rcases List.mem_append.1 hy with hy | hy
    · obtain ⟨x, hx, hxy⟩ := h.2 y hy
      exact ⟨x, List.mem_append_left _ hx, hxy⟩
    · obtain ⟨x, hx, hxy⟩ := h'.2 y hy
      exact ⟨x, List.mem_append_right _ hx, hxy⟩

theorem map_iff {s : γ → δ → Prop} {f : α → γ} {g : β → δ} :
    Covers s (xs.map f) (ys.map g) ↔ Covers (fun x y => s (f x) (g y)) xs ys := by
  simp [Covers]

theorem iff_congr {s : α → β → Prop} (hrs : ∀ x ∈ xs, ∀ y ∈ ys, r x y ↔ s x y) :
    Covers r xs ys ↔ Covers s xs ys := by
  apply and_congr
  · exact forall₂_congr fun x hx => exists_congr fun y => and_congr_right fun hy => hrs x hx y hy
  · exact forall₂_congr fun y hy => exists_congr fun x => and_congr_right fun hx => hrs x hx y hy

end Covers

theorem Distinct.ofList_beq_iff [BEq α] [EquivBEq α] {xs ys : List α} :
    (Distinct.ofList xs == .ofList ys) = true ↔ Covers (fun x y => (x == y) = true) xs ys := by
  have hcontains (zs : List α) (a : α) : (Distinct.ofList zs).toList.contains a = zs.contains a := by
    rw [List.contains_eq_any_beq, List.contains_eq_any_beq]
    apply Distinct.any_eraseDups
    intro b c hbc
    rw [Bool.eq_iff_iff]
    exact ⟨fun h => BEq.trans h hbc, fun h => BEq.trans h (BEq.symm hbc)⟩
  rw [Distinct.beq_iff_contains_eq]
  simp only [hcontains]
  constructor
  · intro h
    constructor
    · intro x hx
      rw [← List.contains_iff_exists_mem_beq, ← h]
      exact List.contains_iff_exists_mem_beq.2 ⟨x, hx, BEq.rfl⟩
    · intro y hy
      have hy' : xs.contains y = true := by
        rw [h]
        exact List.contains_iff_exists_mem_beq.2 ⟨y, hy, BEq.rfl⟩
      obtain ⟨x, hx, hxy⟩ := List.contains_iff_exists_mem_beq.1 hy'
      exact ⟨x, hx, BEq.symm hxy⟩
  · intro h a
    rw [Bool.eq_iff_iff, List.contains_iff_exists_mem_beq, List.contains_iff_exists_mem_beq]
    constructor
    · rintro ⟨x, hx, hax⟩
      obtain ⟨y, hy, hxy⟩ := h.1 x hx
      exact ⟨y, hy, BEq.trans hax hxy⟩
    · rintro ⟨y, hy, hay⟩
      obtain ⟨x, hx, hxy⟩ := h.2 y hy
      exact ⟨x, hx, BEq.trans hay (BEq.symm hxy)⟩

end GraphQuery
