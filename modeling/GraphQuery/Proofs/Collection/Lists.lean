import GraphQuery.Collection.Distinct
import Mathlib.Data.List.Induction
import Mathlib.Data.List.Nodup
import Mathlib.Data.List.Perm.Basic

/-!
# Lists

Where a list that grows at its end can be split, lists read by places, and what of a list survives
an injective map or another order.
-/

namespace GraphQuery

variable {α β : Type}

/-- A split of a list with one more element at the end is at that element or before it. -/
theorem append_singleton_eq {front back xs : List α} {x last : α}
    (h : xs ++ [last] = front ++ x :: back) :
    (xs = front ∧ last = x) ∨ ∃ back', back = back' ++ [last] ∧ xs = front ++ x :: back' := by
  rcases List.eq_nil_or_concat back with rfl | ⟨back', z, rfl⟩
  · left
    simpa using List.append_inj' h rfl
  · right
    have h' : xs ++ [last] = (front ++ x :: back') ++ [z] := by simpa using h
    obtain ⟨hxs, hlast⟩ := List.append_inj' h' rfl
    exact ⟨back', by simp [List.cons.inj hlast], hxs⟩

theorem filterMap_getElem?_range (xs : List α) :
    (List.range xs.length).filterMap (xs[·]?) = xs := by
  have hsome : (List.range xs.length).map (xs[·]?) = xs.map some := by
    apply List.ext_getElem
    · simp
    · intro i h _
      rw [List.length_map, List.length_range] at h
      simp [h]
  calc (List.range xs.length).filterMap (xs[·]?)
      = ((List.range xs.length).map (xs[·]?)).filterMap id := by
        rw [List.filterMap_map]
        rfl
    _ = xs := by
        rw [hsome]
        simp

theorem getElem?_of_prefix {xs ys : List α} (h : xs <+: ys) {n : ℕ} {x : α}
    (hx : xs[n]? = some x) : ys[n]? = some x := by
  obtain ⟨more, rfl⟩ := h
  rw [List.getElem?_append_left (List.getElem?_eq_some_iff.1 hx).1, hx]

/-- The elements at the places where a test succeeds are those for which it does. -/
theorem filterMap_findIdxs (p : α → Bool) (xs : List α) :
    (xs.findIdxs p).filterMap (xs[·]?) = xs.filter p := by
  induction xs with
  | nil => rfl
  | cons x xs ih =>
    have hlater : (xs.findIdxs p 1).filterMap ((x :: xs)[·]?) = xs.filter p := by
      rw [List.findIdxs_start, List.filterMap_map, ← ih]
      rfl
    rw [List.findIdxs_cons, List.filter_cons]
    split
    · exact congrArg (x :: ·) hlater
    · exact hlater

section Injective

variable [BEq α] [LawfulBEq α] [BEq β] [LawfulBEq β] {f : α → β}

theorem idxOf_map (hf : Function.Injective f) (xs : List α) (x : α) :
    (xs.map f).idxOf (f x) = xs.idxOf x := by
  induction xs with
  | nil => rfl
  | cons y ys ih =>
    rw [List.map_cons, List.idxOf_cons, List.idxOf_cons, ih]
    by_cases hxy : y = x
    · subst hxy
      rw [beq_self_eq_true, beq_self_eq_true]
    · rw [beq_false_of_ne hxy, beq_false_of_ne (hf.ne hxy)]

theorem eraseDups_map (hf : Function.Injective f) (xs : List α) :
    (xs.map f).eraseDups = xs.eraseDups.map f := by
  induction xs using Distinct.eraseDups_induction with
  | nil => rfl
  | cons y ys ih =>
    have hfilter : (ys.map f).filter (fun b => !b == f y) = (ys.filter fun a => !a == y).map f := by
      rw [List.filter_map]
      congr 1
      apply List.filter_congr
      intro a _
      by_cases hay : a = y
      · simp [hay]
      · rw [Function.comp_apply, beq_false_of_ne hay, beq_false_of_ne (hf.ne hay)]
    rw [List.map_cons, List.eraseDups_cons, List.eraseDups_cons, List.map_cons, hfilter, ih]

end Injective

/-- Members at the same place of two lists stand together when the lists are zipped. -/
theorem mem_zip_of_idxOf_eq [BEq α] [LawfulBEq α] [BEq β] [LawfulBEq β] {xs : List α} {ys : List β}
    {x : α} {y : β} (hx : x ∈ xs) (hy : y ∈ ys) (h : xs.idxOf x = ys.idxOf y) :
    (x, y) ∈ xs.zip ys := by
  have hlx := List.idxOf_lt_length_of_mem hx
  have hly := List.idxOf_lt_length_of_mem hy
  apply List.mem_iff_getElem.2
  refine ⟨xs.idxOf x, ?_, ?_⟩
  · rw [List.length_zip]
    omega
  · rw [List.getElem_zip, List.getElem_idxOf]
    simp [h]

theorem eq_of_mem_zip_map {xs : List α} {f : α → β} {pair : α × β}
    (h : pair ∈ xs.zip (xs.map f)) : f pair.1 = pair.2 := by
  rw [← List.map_prod_left_eq_zip, List.mem_map] at h
  obtain ⟨x, -, rfl⟩ := h
  rfl

/-- A list that grows at its end keeps the new member unless it has an equal. -/
theorem eraseDups_concat [BEq α] [EquivBEq α] (xs : List α) (x : α) :
    (xs ++ [x]).eraseDups = if xs.contains x then xs.eraseDups else xs.eraseDups ++ [x] := by
  induction xs using Distinct.eraseDups_induction with
  | nil => simp [List.eraseDups_cons]
  | cons y ys ih =>
    rw [List.cons_append, List.eraseDups_cons, List.eraseDups_cons, List.filter_append,
      List.contains_cons]
    by_cases hxy : (x == y) = true
    · simp [hxy]
    · -- No member that equals `y` can equal `x`, so leaving them out changes nothing for `x`.
      have hcontains : (ys.filter fun b => !b == y).contains x = ys.contains x := by
        rw [List.contains_eq_any_beq, List.contains_eq_any_beq, List.any_filter, Bool.eq_iff_iff,
          List.any_eq_true, List.any_eq_true]
        refine exists_congr fun b => and_congr_right fun _ => ?_
        rw [Bool.and_eq_true, and_iff_right_iff_imp]
        intro hxb
        rw [Bool.not_eq_true', ← Bool.not_eq_true]
        exact fun hby => hxy (BEq.trans hxb hby)
      have hfilter : [x].filter (fun b => !b == y) = [x] := by simp [hxy]
      rw [hfilter, ih, hcontains, Bool.eq_false_iff.2 hxy, Bool.false_or]
      split <;> rfl

/-- Distinct members come in the order of their first occurrences. -/
theorem pairwise_idxOf_eraseDups [BEq α] [LawfulBEq α] (xs : List α) :
    xs.eraseDups.Pairwise (fun x y => xs.idxOf x < xs.idxOf y) := by
  induction xs using List.reverseRecOn with
  | nil => exact .nil
  | append_singleton xs z ih =>
    have hold {x : α} (hx : x ∈ xs.eraseDups) : (xs ++ [z]).idxOf x = xs.idxOf x :=
      List.idxOf_append_of_mem (List.mem_eraseDups.1 hx)
    have hxs : xs.eraseDups.Pairwise (fun x y => (xs ++ [z]).idxOf x < (xs ++ [z]).idxOf y) := by
      refine ih.imp_of_mem fun hx hy hxy => ?_
      rwa [hold hx, hold hy]
    rw [eraseDups_concat]
    simp only [List.contains_iff_mem]
    split
    case isTrue => exact hxs
    case isFalse hz =>
      refine List.pairwise_append.2 ⟨hxs, List.pairwise_singleton _ _, fun x hx y hy => ?_⟩
      rw [List.mem_singleton.1 hy, hold hx, List.idxOf_append_of_notMem hz]
      exact Nat.lt_add_right _ (List.idxOf_lt_length_of_mem (List.mem_eraseDups.1 hx))

/-- What is added at the end of a list does not move the first occurrences before it. -/
theorem idxOf_eraseDups_append [BEq α] [LawfulBEq α] {xs : List α} (ys : List α) {x : α}
    (hx : x ∈ xs) : (xs ++ ys).eraseDups.idxOf x = xs.eraseDups.idxOf x := by
  rw [List.eraseDups_append, List.idxOf_append_of_mem (List.mem_eraseDups.2 hx)]

/-- A map that rises along a list rises from a member to each that does not come earlier. -/
theorem le_of_idxOf_le [BEq α] [LawfulBEq α] {f : α → ℕ} {xs : List α} {x y : α}
    (h : xs.Pairwise fun a b => f a < f b) (hx : x ∈ xs) (hy : y ∈ xs)
    (hle : xs.idxOf x ≤ xs.idxOf y) : f x ≤ f y := by
  rcases Nat.eq_or_lt_of_le hle with heq | hlt
  · exact Nat.le_of_eq (congrArg f ((List.idxOf_inj hx).1 heq))
  · have hrises := List.pairwise_iff_getElem.1 h _ _ (List.idxOf_lt_length_of_mem hx)
      (List.idxOf_lt_length_of_mem hy) hlt
    rw [List.getElem_idxOf, List.getElem_idxOf] at hrises
    exact Nat.le_of_lt hrises

/-- Duplicates for which a function gives nothing do not matter to what it gives. -/
theorem filterMap_eraseDups [BEq α] [LawfulBEq α] {f : α → Option β} {xs : List α}
    (h : (xs.filterMap f).Nodup) : xs.eraseDups.filterMap f = xs.filterMap f := by
  induction xs using List.reverseRecOn with
  | nil => rfl
  | append_singleton xs x ih =>
    rw [List.filterMap_append] at h ⊢
    have hxs := ih (List.nodup_append.1 h).1
    rw [eraseDups_concat]
    simp only [List.contains_iff_mem]
    split
    case isTrue hx =>
      have hnone : f x = none := by
        by_contra hsome
        obtain ⟨y, hy⟩ := Option.ne_none_iff_exists'.1 hsome
        have hmem : y ∈ xs.filterMap f := List.mem_filterMap.2 ⟨x, hx, hy⟩
        exact (List.nodup_append.1 h).2.2 y hmem y (by simp [hy]) rfl
      rw [hxs]
      simp [hnone]
    case isFalse => rw [List.filterMap_append, hxs]

theorem nodup_eraseDups [BEq α] [LawfulBEq α] (xs : List α) : xs.eraseDups.Nodup := by
  apply (Distinct.pairwise_eraseDups xs).imp
  intro a b hab heq
  simp [heq] at hab

theorem perm_eraseDups [BEq α] [LawfulBEq α] {xs ys : List α} (h : xs.Perm ys) :
    xs.eraseDups.Perm ys.eraseDups := by
  apply (List.perm_ext_iff_of_nodup (nodup_eraseDups xs) (nodup_eraseDups ys)).2
  intro a
  rw [List.mem_eraseDups, List.mem_eraseDups, h.mem_iff]

theorem mergeSort_eq_of_perm {le : α → α → Bool} (htrans : ∀ a b c, le a b → le b c → le a c)
    (htotal : ∀ a b, le a b || le b a) (hantisymm : ∀ a b, le a b → le b a → a = b)
    {xs ys : List α} (h : xs.Perm ys) : xs.mergeSort le = ys.mergeSort le := by
  have hsorted (zs : List α) := List.pairwise_mergeSort htrans htotal zs
  apply List.Perm.eq_of_pairwise _ (hsorted xs) (hsorted ys)
  · exact (List.mergeSort_perm xs le).trans (h.trans (List.mergeSort_perm ys le).symm)
  · intro a b _ _
    exact hantisymm a b

theorem mergeSort_le_eq_of_perm [LE α] [DecidableLE α] [Std.IsLinearOrder α] {xs ys : List α}
    (h : xs.Perm ys) : xs.mergeSort (· ≤ ·) = ys.mergeSort (· ≤ ·) := by
  apply mergeSort_eq_of_perm _ _ _ h
  · intro a b c hab hbc
    exact decide_eq_true (Std.le_trans (of_decide_eq_true hab) (of_decide_eq_true hbc))
  · intro a b
    rw [Bool.or_eq_true_iff, decide_eq_true_iff, decide_eq_true_iff]
    exact Std.le_total
  · intro a b hab hba
    exact Std.le_antisymm (of_decide_eq_true hab) (of_decide_eq_true hba)

theorem mergeSort_compare_eq_of_perm [Ord α] [Std.TransOrd α] [Std.LawfulEqOrd α] {xs ys : List α}
    (h : xs.Perm ys) :
    (xs.mergeSort fun a b => (compare a b).isLE) = ys.mergeSort fun a b => (compare a b).isLE := by
  apply mergeSort_eq_of_perm _ _ _ h
  · intro a b c
    exact Std.TransOrd.isLE_trans
  · intro a b
    rw [Std.OrientedOrd.eq_swap (a := b) (b := a)]
    cases compare a b <;> rfl
  · intro a b hab hba
    exact Std.LawfulEqOrd.eq_of_compare (Std.OrientedCmp.isLE_antisymm hab hba)

theorem exists_of_forall₂ {R : α → β → Prop} {xs : List α} {ys : List β} (h : List.Forall₂ R xs ys)
    {y : β} (hy : y ∈ ys) : ∃ x ∈ xs, R x y := by
  induction h with
  | nil => cases hy
  | cons hxy _ ih =>
    rcases List.mem_cons.1 hy with rfl | hy
    · exact ⟨_, List.mem_cons_self, hxy⟩
    · obtain ⟨x, hx, hxy⟩ := ih hy
      exact ⟨x, List.mem_cons_of_mem _ hx, hxy⟩

theorem forall₂_comp {γ : Type} {R : α → β → Prop} {S : β → γ → Prop} {T : α → γ → Prop}
    (hRS : ∀ a b c, R a b → S b c → T a c) {xs : List α} {ys : List β} {zs : List γ}
    (h : List.Forall₂ R xs ys) (k : List.Forall₂ S ys zs) : List.Forall₂ T xs zs := by
  induction h generalizing zs with
  | nil =>
    cases k
    exact .nil
  | cons hab _ ih =>
    cases k with
    | cons hbc k => exact .cons (hRS _ _ _ hab hbc) (ih k)

theorem filterMap_ite (c : α → Bool) (g : α → β) (l : List α) :
    l.filterMap (fun x => if c x then some (g x) else none) = (l.filter c).map g := by
  induction l with
  | nil => rfl
  | cons x l ih =>
    cases hx : c x with
    | true => simpa [hx] using ih
    | false => simpa [hx] using ih

theorem flatMap_filter (c : α → Bool) (g : α → List β) (l : List α) :
    (l.filter c).flatMap g = l.flatMap fun x => if c x then g x else [] := by
  induction l with
  | nil => rfl
  | cons x xs ih =>
    rw [List.flatMap_cons, ← ih, List.filter_cons]
    split
    · rw [List.flatMap_cons]
    · rfl

theorem forall₂_and {S S' : α → β → Prop} {xs : List α} {ys : List β}
    (h : List.Forall₂ S xs ys) (h' : List.Forall₂ S' xs ys) :
    List.Forall₂ (fun x y => S x y ∧ S' x y) xs ys := by
  rw [List.forall₂_iff_zip] at h h' ⊢
  exact ⟨h.1, fun hxy => ⟨h.2 hxy, h'.2 hxy⟩⟩

/-- A sublist repeats nothing if the list repeats none of its members. -/
theorem nodup_of_sublist [BEq α] [LawfulBEq α] {l l' : List α} (h : l.Sublist l')
    (hcount : ∀ x ∈ l, l'.count x ≤ 1) : l.Nodup := by
  rw [List.nodup_iff_count_le_one]
  intro x
  by_cases hx : x ∈ l
  · exact Nat.le_trans (h.count_le x) (hcount x hx)
  · rw [List.count_eq_zero_of_not_mem hx]
    exact Nat.zero_le 1

end GraphQuery
