import GraphQuery.Digest.Statement
import GraphQuery.Proofs.Pattern.Equality

/-!
# Equal values feed the same words

What a hash table takes to be equal has to have equal hashes. Statements and all that is made of
them are equal up to unnamed slots, up to the order of players, properties and members, and
statements also up to how often they repeat a property. What they feed to a hasher leaves out just
that, whichever digest condenses their members (`shapeEquality_lawful`).
-/

namespace GraphQuery

/-- Equal values feed the same words to a hasher. -/
class LawfulFeed (α : Type) [BEq α] [Feed α] : Prop where
  feed_eq : ∀ (digest : Digest) {a b : α}, (a == b) = true → feed digest a = feed digest b

export LawfulFeed (feed_eq)

theorem digested_eq {α : Type} [BEq α] [Feed α] [LawfulFeed α] (digest : Digest) {a b : α}
    (h : (a == b) = true) : Feed.digested digest a = Feed.digested digest b :=
  congrArg digest (feed_eq digest h)

theorem Feed.multiset_eq_of_perm {digests digests' : List Nat} (h : digests.Perm digests') :
    multiset digests = multiset digests' := by
  rw [multiset, multiset, h.length_eq]
  congr 1
  exact mergeSort_le_eq_of_perm h

theorem Feed.set_eq_of_mem_iff {digests digests' : List Nat}
    (h : ∀ n, n ∈ digests ↔ n ∈ digests') : set digests = set digests' := by
  have hset : SortedSet.ofList digests = SortedSet.ofList digests' :=
    SortedSet.ext fun n => by rw [SortedSet.mem_ofList, SortedSet.mem_ofList, h]
  rw [set, set, hset]

instance {α : Type} [BEq α] [EquivBEq α] [Feed α] [LawfulFeed α] : LawfulFeed (Distinct α) where
  feed_eq digest {s t} h := by
    obtain ⟨k, hperm, hk⟩ := Distinct.exists_perm_of_beq h
    have hdigests : s.toList.map (Feed.digested digest) = k.map (Feed.digested digest) := by
      rw [← List.forall₂_eq_eq_eq, List.forall₂_map_left_iff, List.forall₂_map_right_iff]
      exact hk.imp fun _ _ hab => digested_eq digest hab
    refine Feed.multiset_eq_of_perm ?_
    rw [hdigests]
    exact hperm.map _

theorem Variable.shapeFeed_eq (digest : Digest) {v w : Variable} (h : v.name? = w.name?) :
    v.shapeFeed digest = w.shapeFeed digest := by
  rw [shapeFeed, shapeFeed, h]

instance : LawfulFeed TypeRef where
  feed_eq digest {a b} h := by
    obtain ⟨hvar, hlabel⟩ := TypeRef.beq_iff.1 h
    change a.var.shapeFeed digest ++ feed digest a.label =
      b.var.shapeFeed digest ++ feed digest b.label
    rw [Variable.shapeFeed_eq digest hvar, hlabel]

/-- What a player feeds is decided by its shape. -/
theorem RolePlayer.map_digested (digest : Digest) (players : List RolePlayer) :
    players.map (Feed.digested digest) =
      (players.map shape).map fun s => digest (feed digest s.1 ++ feed digest s.2) := by
  rw [List.map_map]
  rfl

theorem Operand.shapeFeed_eq (digest : Digest) {a b : Operand} (h : a.alike b = true) :
    a.shapeFeed digest = b.shapeFeed digest := by
  cases a <;> cases b <;> simp only [alike, decide_eq_true_iff, reduceCtorEq] at h
  case constant.constant => rw [h]
  case var.var => rw [shapeFeed, shapeFeed, Variable.shapeFeed_eq digest (Variable.alike_iff.1 h)]

/-- Statements feed the same words if their properties do: those of each are among those of the
other. -/
theorem Statement.shapeFeed_eq_of (digest : Digest) {s t : Statement}
    (hproperty : ∀ p ∈ s.properties, ∀ q, (p == q) = true → feed digest p = feed digest q)
    (h : (s == t) = true) : s.shapeFeed digest = t.shapeFeed digest := by
  obtain ⟨hvar, hpolarity, -, hsub, hsup⟩ := Statement.beq_iff.1 h
  obtain ⟨v, polarity, ps⟩ := s
  obtain ⟨w, polarity', qs⟩ := t
  dsimp only at hproperty hvar hpolarity hsub hsup
  have hdigests : ∀ n, n ∈ Property.shapeDigests digest ps ↔
      n ∈ Property.shapeDigests digest qs := by
    intro n
    simp only [Property.shapeDigests_eq_map, List.mem_map]
    constructor
    · rintro ⟨p, hp, rfl⟩
      obtain ⟨q, hq, hpq⟩ := hsub p hp
      exact ⟨q, hq, congrArg digest (hproperty p hp q hpq).symm⟩
    · rintro ⟨q, hq, rfl⟩
      obtain ⟨p, hp, hpq⟩ := hsup q hq
      exact ⟨p, hp, congrArg digest (hproperty p hp q hpq)⟩
  rw [shapeFeed, shapeFeed, Variable.shapeFeed_eq digest (Variable.alike_iff.1 hvar), hpolarity,
    Feed.set_eq_of_mem_iff hdigests]

theorem Property.shapeFeed_eq (digest : Digest) {p q : Property} (h : (p == q) = true) :
    p.shapeFeed digest = q.shapeFeed digest := by
  have hkind := kind_eq_of_beq h
  induction p using Property.induction generalizing q with
  | has type owned ih =>
    cases q <;> cases hkind
    obtain ⟨rfl, howned⟩ := has_beq_has.1 h
    have hfeed := Statement.shapeFeed_eq_of digest
      (fun p hp q hpq => ih p hp hpq (kind_eq_of_beq hpq)) howned
    rw [shapeFeed, shapeFeed, hfeed]
  | other p hp =>
    cases p with
    | isa type direct =>
      cases q <;> cases hkind
      obtain ⟨htype, rfl⟩ := isa_beq_isa.1 h
      rw [shapeFeed, shapeFeed, feed_eq digest htype]
    | sub superType direct =>
      cases q <;> cases hkind
      obtain ⟨htype, rfl⟩ := sub_beq_sub.1 h
      rw [shapeFeed, shapeFeed, feed_eq digest htype]
    | label l =>
      cases q <;> cases hkind
      rw [label_beq_label.1 h]
    | id number =>
      cases q <;> cases hkind
      rw [id_beq_id.1 h]
    | dataType type =>
      cases q <;> cases hkind
      rw [dataType_beq_dataType.1 h]
    | has => exact absurd rfl hp
    | relation players =>
      cases q <;> cases hkind
      rw [shapeFeed, shapeFeed, RolePlayer.map_digested, RolePlayer.map_digested,
        Feed.multiset_eq_of_perm ((relation_beq_relation.1 h).map _)]
    | value predicate =>
      cases q <;> cases hkind
      obtain ⟨hcomparator, hoperand⟩ := value_beq_value.1 h
      rw [shapeFeed, shapeFeed, hcomparator, Operand.shapeFeed_eq digest hoperand]
    | neq other =>
      cases q <;> cases hkind
      rw [shapeFeed, shapeFeed, Variable.shapeFeed_eq digest (neq_beq_neq.1 h)]

instance : LawfulFeed Property := ⟨fun digest _ _ h => Property.shapeFeed_eq digest h⟩

instance : LawfulFeed Statement :=
  ⟨fun digest _ _ h => Statement.shapeFeed_eq_of digest (fun _ _ _ h => feed_eq digest h) h⟩

theorem Pattern.shapeFeeds_eq {digest : Digest} {ps qs : List Pattern}
    (h : List.Forall₂ (fun p q : Pattern => ∀ rest, p.shapeFeed digest rest = q.shapeFeed digest rest)
      ps qs) (rest : List Nat) : shapeFeeds digest ps rest = shapeFeeds digest qs rest := by
  induction h with
  | nil => rfl
  | cons hpq _ ih => rw [shapeFeeds, shapeFeeds, ih, hpq]

theorem Pattern.shapeFeed_eq (digest : Digest) {p q : Pattern} (h : (p == q) = true) :
    ∀ rest, p.shapeFeed digest rest = q.shapeFeed digest rest := by
  refine beq_induction
    (motive := fun p q => ∀ rest, p.shapeFeed digest rest = q.shapeFeed digest rest) ?_ ?_ ?_ ?_ h
  · intro s t h rest
    rw [shapeFeed, shapeFeed, feed_eq digest h]
  · intro ps qs ih rest
    rw [shapeFeed, shapeFeed, ih.length_eq, shapeFeeds_eq ih]
  · intro ps qs ih rest
    rw [shapeFeed, shapeFeed, ih.length_eq, shapeFeeds_eq ih]
  · intro p q ih rest
    rw [shapeFeed, shapeFeed, ih]

instance : LawfulFeed Pattern := ⟨fun digest _ _ h => Pattern.shapeFeed_eq digest h []⟩

/-- That a collection without repetition keeps of each list what is equal to nothing before it, in
that order, and that two collections are equal just when they contain the same. -/
structure Distinct.KeepsFirst (α : Type) [BEq α] : Prop where
  toList_ofList : ∀ l : List α, (ofList l).toList =
    ((List.range l.length).filter (isFirst l)).filterMap (l[·]?)
  beq_iff : ∀ s t : Distinct α,
    (s == t) = true ↔ ∀ a, s.toList.contains a = t.toList.contains a

theorem Distinct.keepsFirst (α : Type) [BEq α] [EquivBEq α] : KeepsFirst α :=
  ⟨eraseDups_eq_filterMap_isFirst, fun _ _ => beq_iff_contains_eq⟩

/-- Equality of properties, statements, patterns, conjunctions and normal forms is an equivalence,
and equal ones feed the same words. Conjunctions and normal forms keep the first of equal members
and are equal as sets. -/
theorem shapeEquality_lawful :
    (EquivBEq Property ∧ LawfulFeed Property) ∧ (EquivBEq Statement ∧ LawfulFeed Statement) ∧
      (EquivBEq Pattern ∧ LawfulFeed Pattern) ∧ (EquivBEq Conjunction ∧ LawfulFeed Conjunction) ∧
      (EquivBEq NormalForm ∧ LawfulFeed NormalForm) ∧
      Distinct.KeepsFirst Statement ∧ Distinct.KeepsFirst Conjunction :=
  ⟨⟨inferInstance, inferInstance⟩, ⟨inferInstance, inferInstance⟩, ⟨inferInstance, inferInstance⟩,
    ⟨inferInstance, inferInstance⟩, ⟨inferInstance, inferInstance⟩, Distinct.keepsFirst Statement,
    Distinct.keepsFirst Conjunction⟩

end GraphQuery
