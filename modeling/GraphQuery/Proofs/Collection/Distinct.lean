import GraphQuery.Proofs.Collection.Lists

/-!
# Comparison of collections without repetition

Where the members are compared by an equivalence, so are the collections: two of the same size are
equal as soon as each member of the one has an equal in the other, since no two members of the one
can share it. What respects the comparison cannot tell a list from its distinct members.
-/

namespace GraphQuery.Distinct

variable {α : Type} [BEq α]

theorem exists_eraseDups_beq [EquivBEq α] {l : List α} {b : α} (hb : b ∈ l) :
    ∃ a ∈ l.eraseDups, (b == a) = true := by
  induction l using eraseDups_induction with
  | nil => cases hb
  | cons x xs ih =>
    rw [List.eraseDups_cons]
    by_cases hbx : (b == x) = true
    · exact ⟨x, List.mem_cons_self, hbx⟩
    · have hbxs : b ∈ xs.filter fun a => !a == x := by
        rcases List.mem_cons.1 hb with rfl | hb
        · simp at hbx
        · exact List.mem_filter.2 ⟨hb, by simpa using hbx⟩
      obtain ⟨a, ha, hba⟩ := ih hbxs
      exact ⟨a, List.mem_cons_of_mem _ ha, hba⟩

theorem eraseDups_eq_self {l : List α} (h : l.Pairwise fun a b => (b == a) = false) :
    l.eraseDups = l := by
  induction l with
  | nil => rfl
  | cons a as ih =>
    obtain ⟨ha, has⟩ := List.pairwise_cons.1 h
    have hfilter : as.filter (fun b => !b == a) = as := by
      rw [List.filter_eq_self]
      intro b hb
      rw [ha b hb]
      rfl
    rw [List.eraseDups_cons, hfilter, ih has]

theorem eraseDups_sublist (l : List α) : l.eraseDups.Sublist l := by
  induction l using eraseDups_induction with
  | nil => exact .slnil
  | cons x xs ih =>
    rw [List.eraseDups_cons]
    exact (ih.trans List.filter_sublist).cons_cons x

/-- A predicate that does not tell equal members apart holds of one of a list exactly when it holds
of one of the distinct ones. -/
theorem any_eraseDups [EquivBEq α] {f : α → Bool} (hf : ∀ a b, (a == b) = true → f a = f b)
    (l : List α) : l.eraseDups.any f = l.any f := by
  rw [Bool.eq_iff_iff, List.any_eq_true, List.any_eq_true]
  constructor
  · rintro ⟨a, ha, hfa⟩
    exact ⟨a, mem_of_mem_eraseDups ha, hfa⟩
  · rintro ⟨b, hb, hfb⟩
    obtain ⟨a, ha, hba⟩ := exists_eraseDups_beq hb
    exact ⟨a, ha, hf b a hba ▸ hfb⟩

theorem all_eraseDups [EquivBEq α] {f : α → Bool} (hf : ∀ a b, (a == b) = true → f a = f b)
    (l : List α) : l.eraseDups.all f = l.all f := by
  rw [List.all_eq_not_any_not, List.all_eq_not_any_not,
    any_eraseDups (fun a b h => congrArg _ (hf a b h))]

/-- Lists of which the first has no two equal members and is not shorter: if each member of the
first has an equal in the second, the members of the two can be paired up. -/
theorem exists_perm_of_length_le [PartialEquivBEq α] {l m : List α}
    (hl : l.Pairwise fun a b => (b == a) = false) (hlen : m.length ≤ l.length)
    (h : ∀ a ∈ l, ∃ b ∈ m, (a == b) = true) :
    ∃ k : List α, k.Perm m ∧ List.Forall₂ (fun a b => (a == b) = true) l k := by
  induction l generalizing m with
  | nil =>
    rw [List.length_eq_zero_iff.1 (Nat.le_zero.1 hlen)]
    exact ⟨[], .nil, .nil⟩
  | cons x xs ih =>
    have ⟨hx, hxs⟩ := List.pairwise_cons.1 hl
    obtain ⟨y, hy, hxy⟩ := h x List.mem_cons_self
    obtain ⟨front, back, rfl⟩ := List.append_of_mem hy
    -- `y` is used up by `x`, so the other members find their equals elsewhere.
    have hrest : ∀ a ∈ xs, ∃ b ∈ front ++ back, (a == b) = true := by
      intro a ha
      obtain ⟨b, hb, hab⟩ := h a (List.mem_cons_of_mem _ ha)
      refine ⟨b, ?_, hab⟩
      rcases List.mem_append.1 hb with hb | hb
      · exact List.mem_append_left _ hb
      · rcases List.mem_cons.1 hb with rfl | hb
        · exact absurd (PartialEquivBEq.trans hab (PartialEquivBEq.symm hxy)) (by simp [hx a ha])
        · exact List.mem_append_right _ hb
    have hlen' : (front ++ back).length ≤ xs.length := by
      simp only [List.length_append, List.length_cons] at hlen ⊢
      omega
    obtain ⟨k, hperm, hk⟩ := ih hxs hlen' hrest
    exact ⟨y :: k, (hperm.cons y).trans List.perm_middle.symm, .cons hxy hk⟩

/-- Of the members that equal a distinct one, that one comes first. -/
theorem find?_of_mem_eraseDups [EquivBEq α] {l : List α} {a : α} (ha : a ∈ l.eraseDups) :
    l.find? (a == ·) = some a := by
  induction l using List.reverseRecOn with
  | nil => cases ha
  | append_singleton l x ih =>
    rw [eraseDups_concat] at ha
    rw [List.find?_append]
    by_cases hx : l.contains x = true
    · rw [if_pos hx] at ha
      rw [ih ha, Option.some_or]
    · rw [if_neg hx] at ha
      rcases List.mem_append.1 ha with ha | ha
      · rw [ih ha, Option.some_or]
      · obtain rfl := List.mem_singleton.1 ha
        have hnone : l.find? (a == ·) = none := by
          rw [List.contains_eq_any_beq, List.any_eq_true] at hx
          exact List.find?_eq_none.2 fun b hb hab => hx ⟨b, hb, hab⟩
        simp [hnone]

/-- Whether a place of a list has a member that equals none before it. -/
def isFirst (l : List α) (i : Nat) : Bool :=
  l[i]?.any fun a => !(l.take i).any (a == ·)

/-- The distinct members of a list are those at the places of first occurrences, in their order. -/
theorem eraseDups_eq_filterMap_isFirst [EquivBEq α] (l : List α) :
    l.eraseDups = ((List.range l.length).filter (isFirst l)).filterMap (l[·]?) := by
  induction l using List.reverseRecOn with
  | nil => rfl
  | append_singleton l a ih =>
    have hbefore : ((List.range l.length).filter (isFirst (l ++ [a]))).filterMap ((l ++ [a])[·]?) =
        ((List.range l.length).filter (isFirst l)).filterMap (l[·]?) := by
      have hget : ∀ i ∈ List.range l.length, (l ++ [a])[i]? = l[i]? :=
        fun i hi => List.getElem?_append_left (List.mem_range.1 hi)
      rw [List.filter_congr (q := isFirst l)]
      · exact List.filterMap_congr fun i hi => hget i (List.mem_filter.1 hi).1
      · intro i hi
        rw [isFirst, isFirst, hget i hi,
          List.take_append_of_le_length (Nat.le_of_lt (List.mem_range.1 hi))]
    have hlast : isFirst (l ++ [a]) l.length = !l.any (a == ·) := by simp [isFirst]
    rw [eraseDups_concat, List.contains_eq_any_beq, ih, List.length_append, List.length_singleton,
      List.range_succ, List.filter_append, List.filterMap_append, hbefore]
    cases h : l.any (a == ·) <;> simp [hlast, h]

/-- What has no equal members is kept as it is. -/
theorem ofList_toList (s : Distinct α) : ofList s.toList = s := by
  obtain ⟨l, h⟩ := s
  simp only [ofList, mk.injEq]
  exact eraseDups_eq_self h

theorem beq_iff {s t : Distinct α} :
    (s == t) = true ↔
      s.toList.length = t.toList.length ∧ ∀ a ∈ s.toList, ∃ b ∈ t.toList, (a == b) = true := by
  change (decide (s.toList.length = t.toList.length) && _) = true ↔ _
  rw [Bool.and_eq_true, decide_eq_true_iff]
  simp only [List.all_eq_true, List.any_eq_true]

/-- The members of equal collections can be paired up. -/
theorem exists_perm_of_beq [PartialEquivBEq α] {s t : Distinct α} (h : (s == t) = true) :
    ∃ k : List α, k.Perm t.toList ∧ List.Forall₂ (fun a b => (a == b) = true) s.toList k := by
  have ⟨hlen, hsub⟩ := beq_iff.1 h
  exact exists_perm_of_length_le s.pairwise_ne (Nat.le_of_eq hlen.symm) hsub

theorem exists_beq_of_beq [PartialEquivBEq α] {s t : Distinct α} (h : (s == t) = true) :
    ∀ b ∈ t.toList, ∃ a ∈ s.toList, (a == b) = true := by
  obtain ⟨k, hperm, hk⟩ := exists_perm_of_beq h
  exact fun b hb => exists_of_forall₂ hk (hperm.mem_iff.2 hb)

instance [EquivBEq α] : EquivBEq (Distinct α) where
  rfl := beq_iff.2 ⟨rfl, fun a ha => ⟨a, ha, BEq.rfl⟩⟩
  symm h := by
    refine beq_iff.2 ⟨(beq_iff.1 h).1.symm, fun b hb => ?_⟩
    obtain ⟨a, ha, hab⟩ := exists_beq_of_beq h b hb
    exact ⟨a, ha, PartialEquivBEq.symm hab⟩
  trans h k := by
    have ⟨hlen, hsub⟩ := beq_iff.1 h
    have ⟨klen, ksub⟩ := beq_iff.1 k
    refine beq_iff.2 ⟨hlen.trans klen, fun a ha => ?_⟩
    obtain ⟨b, hb, hab⟩ := hsub a ha
    obtain ⟨c, hc, hbc⟩ := ksub b hb
    exact ⟨c, hc, PartialEquivBEq.trans hab hbc⟩

theorem length_le_of_forall_exists_beq [PartialEquivBEq α] {s t : Distinct α}
    (h : ∀ a ∈ s.toList, ∃ b ∈ t.toList, (a == b) = true) : s.toList.length ≤ t.toList.length := by
  by_contra hlt
  obtain ⟨k, hperm, hk⟩ := exists_perm_of_length_le s.pairwise_ne (Nat.le_of_not_le hlt) h
  exact hlt (Nat.le_of_eq (hk.length_eq.trans hperm.length_eq))

/-- Collections are equal when they contain the same, although only the one is searched for the
members of the other. -/
theorem beq_iff_contains_eq [EquivBEq α] {s t : Distinct α} :
    (s == t) = true ↔ ∀ a, s.toList.contains a = t.toList.contains a := by
  have hsub {s t : Distinct α} (h : ∀ a, s.toList.contains a = t.toList.contains a) :
      ∀ a ∈ s.toList, ∃ b ∈ t.toList, (a == b) = true := by
    intro a ha
    rw [← List.contains_iff_exists_mem_beq, ← h]
    exact List.contains_iff_exists_mem_beq.2 ⟨a, ha, BEq.rfl⟩
  constructor
  · intro h a
    rw [Bool.eq_iff_iff, List.contains_iff_exists_mem_beq, List.contains_iff_exists_mem_beq]
    constructor
    · rintro ⟨b, hb, hab⟩
      obtain ⟨c, hc, hbc⟩ := (beq_iff.1 h).2 b hb
      exact ⟨c, hc, BEq.trans hab hbc⟩
    · rintro ⟨c, hc, hac⟩
      obtain ⟨b, hb, hbc⟩ := exists_beq_of_beq h c hc
      exact ⟨b, hb, BEq.trans hac (BEq.symm hbc)⟩
  · intro h
    have hle := length_le_of_forall_exists_beq (hsub h)
    have hge := length_le_of_forall_exists_beq (hsub fun a => (h a).symm)
    exact beq_iff.2 ⟨Nat.le_antisymm hle hge, hsub h⟩

/-- A predicate that does not tell equal members apart holds of all members of equal collections or
of neither. -/
theorem all_congr [EquivBEq α] {f : α → Bool} (hf : ∀ a b, (a == b) = true → f a = f b)
    {s t : Distinct α} (h : (s == t) = true) : s.toList.all f = t.toList.all f := by
  rw [Bool.eq_iff_iff, List.all_eq_true, List.all_eq_true]
  constructor
  · intro hs b hb
    obtain ⟨a, ha, hab⟩ := exists_beq_of_beq h b hb
    exact hf a b hab ▸ hs a ha
  · intro ht a ha
    obtain ⟨b, hb, hab⟩ := (beq_iff.1 h).2 a ha
    exact (hf a b hab).symm ▸ ht b hb

end GraphQuery.Distinct
