import GraphQuery.Proofs.Atom.Index
import GraphQuery.Proofs.Collection.Distinct

/-!
# Families as classes of equivalent atoms

The atoms that open families are those that no earlier one is equivalent to, and the family that
such an atom opened has all atoms equivalent to it, in the order in which they were added. This is
what a further atom preserves, whether it joins a family or opens one.
-/

namespace GraphQuery

namespace Atom

variable {equivalence : Equivalence} {a b : Atom}

theorem equivalent_comm : a.equivalent equivalence b = b.equivalent equivalence a := by
  rw [equivalent, equivalent]
  simp only [eq_comm]

/-- Equivalent atoms are equivalent to the same atoms. -/
theorem equivalent_congr (h : a.equivalent equivalence b = true) :
    a.equivalent equivalence = b.equivalent equivalence := by
  funext c
  rw [equivalent, equivalent, of_decide_eq_true h]

end Atom

namespace AtomFamilies

variable {equivalence : Equivalence} {a : Atom} {as : List Atom}

/-- The atoms of a list that no earlier one is equivalent to. -/
def firsts (equivalence : Equivalence) (as : List Atom) : List KeyedAtom :=
  (as.map (KeyedAtom.mk equivalence)).eraseDups

/-- For each of these the atoms that are equivalent to it, with their key. -/
def classesOf (equivalence : Equivalence) (as : List Atom) : List (AtomKey × List Atom) :=
  (firsts equivalence as).map fun first =>
    (first.key, as.filter (first.atom.equivalent equivalence))

theorem equivalence_of_mem_firsts {first : KeyedAtom} (h : first ∈ firsts equivalence as) :
    first.equivalence = equivalence := by
  obtain ⟨a, -, rfl⟩ := List.mem_map.1 (Distinct.mem_of_mem_eraseDups h)
  rfl

theorem pairwise_firsts : (firsts equivalence as).Pairwise fun k l =>
    k.atom.equivalent equivalence l.atom = false := by
  refine (Distinct.pairwise_eraseDups _).imp_of_mem fun {k l} hk hl h => ?_
  obtain ⟨a, -, rfl⟩ := List.mem_map.1 (Distinct.mem_of_mem_eraseDups hk)
  obtain ⟨b, -, rfl⟩ := List.mem_map.1 (Distinct.mem_of_mem_eraseDups hl)
  rwa [KeyedAtom.mk_beq_mk, Atom.equivalent_comm] at h

theorem firsts_concat :
    firsts equivalence (as ++ [a]) =
      if as.any (a.equivalent equivalence) then firsts equivalence as
      else firsts equivalence as ++ [⟨equivalence, a⟩] := by
  rw [firsts, List.map_append, List.map_singleton, eraseDups_concat, List.contains_eq_any_beq,
    List.any_map]
  simp only [Function.comp_def, KeyedAtom.mk_beq_mk]
  rfl

/-- An atom has the key of a class exactly if an atom of the list is equivalent to it. -/
theorem any_classesOf :
    (classesOf equivalence as).any (·.1 = equivalence.key a) =
      as.any (a.equivalent equivalence) := by
  have hkey : ∀ k l : KeyedAtom, (k == l) = true →
      decide (k.key = equivalence.key a) = decide (l.key = equivalence.key a) := by
    intro k l h
    rw [(KeyedAtom.beq_iff.1 h).2]
  calc (classesOf equivalence as).any (·.1 = equivalence.key a)
      = (firsts equivalence as).any (fun k => decide (k.key = equivalence.key a)) := List.any_map
    _ = (as.map (KeyedAtom.mk equivalence)).any (fun k => decide (k.key = equivalence.key a)) :=
      Distinct.any_eraseDups hkey _
    _ = as.any (a.equivalent equivalence) := by
      rw [List.any_map]
      simp only [Function.comp_def, KeyedAtom.key, eq_comm]
      rfl

theorem nodup_keys_classesOf : ((classesOf equivalence as).map (·.1)).Nodup := by
  rw [classesOf, List.map_map, List.Nodup, List.pairwise_map]
  refine pairwise_firsts.imp_of_mem fun {k l} hk hl h heq => ?_
  obtain ⟨a, -, rfl⟩ := List.mem_map.1 (Distinct.mem_of_mem_eraseDups hk)
  obtain ⟨b, -, rfl⟩ := List.mem_map.1 (Distinct.mem_of_mem_eraseDups hl)
  exact of_decide_eq_false h heq

/-- Where keys are distinct, a member joins the one class that has its key, or opens one. -/
theorem addTo_eq {key : AtomKey} {cs : List (AtomKey × List Atom)} (h : (cs.map (·.1)).Nodup) :
    addTo key a cs =
      (cs.map fun c => if c.1 = key then (c.1, c.2 ++ [a]) else c) ++
        if cs.any (·.1 = key) then [] else [(key, [a])] := by
  induction cs with
  | nil => rfl
  | cons c cs ih =>
    obtain ⟨hc, hcs⟩ := List.nodup_cons.1 h
    rw [addTo, List.map_cons, List.any_cons]
    by_cases hkey : c.1 = key
    · have hrest : cs.map (fun c => if c.1 = key then (c.1, c.2 ++ [a]) else c) = cs := by
        refine (List.map_congr_left fun d hd => ?_).trans (List.map_id cs)
        exact if_neg fun hd' => hc (List.mem_map.2 ⟨d, hd, hd'.trans hkey.symm⟩)
      simp [hkey, hrest]
    · rw [if_neg hkey, if_neg hkey, ih hcs, decide_eq_false hkey, Bool.false_or, List.cons_append]

theorem insertMany_concat (F : AtomFamilies) (as : List Atom) (a : Atom) :
    F.insertMany (as ++ [a]) = (F.insertMany as).insert a := by
  rw [insertMany, List.foldl_append]
  rfl

theorem addTo_classesOf :
    addTo (equivalence.key a) a (classesOf equivalence as) = classesOf equivalence (as ++ [a]) := by
  have hjoin : ∀ first ∈ firsts equivalence as,
      (if first.key = equivalence.key a then
          (first.key, as.filter (first.atom.equivalent equivalence) ++ [a])
        else (first.key, as.filter (first.atom.equivalent equivalence))) =
      (first.key, (as ++ [a]).filter (first.atom.equivalent equivalence)) := by
    intro first hfirst
    obtain rfl := equivalence_of_mem_firsts hfirst
    rw [List.filter_append, List.filter_singleton, Atom.equivalent, KeyedAtom.key]
    split <;> simp [*]
  rw [addTo_eq nodup_keys_classesOf, any_classesOf, classesOf, classesOf, firsts_concat,
    List.map_map]
  cases hany : as.any (a.equivalent equivalence) with
  | true =>
    rw [if_pos rfl, if_pos rfl, List.append_nil]
    exact List.map_congr_left hjoin
  | false =>
    have hnone : as.filter (a.equivalent equivalence) = [] := by
      rw [List.filter_eq_nil_iff]
      exact List.any_eq_false.1 hany
    rw [if_neg Bool.false_ne_true, if_neg Bool.false_ne_true, List.map_append, List.map_singleton]
    congr 1
    · exact List.map_congr_left hjoin
    · rw [List.filter_append, hnone]
      simp [Atom.equivalent, KeyedAtom.key]

/-- Adding the atoms of a list one by one fills the classes of the list. -/
theorem insertMany_eq (equivalence : Equivalence) (as : List Atom) :
    (empty equivalence).insertMany as = ⟨equivalence, classesOf equivalence as⟩ := by
  induction as using List.reverseRecOn with
  | nil => rfl
  | append_singleton as a ih =>
    rw [insertMany_concat, ih, insert, addTo_classesOf]

/-- The first atom of a class comes first among its members. -/
theorem head?_of_mem_firsts {first : KeyedAtom} (h : first ∈ firsts equivalence as) :
    (as.filter (first.atom.equivalent equivalence)).head? = some first.atom := by
  have hfind := Distinct.find?_of_mem_eraseDups h
  obtain ⟨equivalence', a⟩ := first
  obtain rfl : equivalence' = equivalence := equivalence_of_mem_firsts h
  rw [List.find?_map, Option.map_eq_some_iff] at hfind
  obtain ⟨b, hb, hba⟩ := hfind
  obtain rfl : b = a := congrArg KeyedAtom.atom hba
  rw [List.head?_filter, ← hb]
  simp only [Function.comp_def, KeyedAtom.mk_beq_mk]

/-- A member that is added is in one class more and in no other. -/
theorem flatMap_addTo_perm (key : AtomKey) (a : Atom) (cs : List (AtomKey × List Atom)) :
    ((addTo key a cs).flatMap (·.2)).Perm (cs.flatMap (·.2) ++ [a]) := by
  induction cs with
  | nil => exact .refl _
  | cons c cs ih =>
    rw [addTo, List.flatMap_cons, List.append_assoc]
    by_cases h : c.1 = key
    · rw [if_pos h, List.flatMap_cons, List.append_assoc]
      exact List.perm_append_comm.append_left c.2
    · rw [if_neg h, List.flatMap_cons]
      exact ih.append_left c.2

theorem flatMap_classesOf_perm (equivalence : Equivalence) (as : List Atom) :
    ((classesOf equivalence as).flatMap (·.2)).Perm as := by
  induction as using List.reverseRecOn with
  | nil => exact .refl _
  | append_singleton as a ih =>
    rw [← addTo_classesOf]
    exact (flatMap_addTo_perm _ a _).trans (ih.append_right [a])

theorem family_insertMany (equivalence : Equivalence) (as : List Atom) (b : Atom) :
    ((empty equivalence).insertMany as).family b = as.filter (b.equivalent equivalence) := by
  induction as using List.reverseRecOn with
  | nil => rfl
  | append_singleton as a ih =>
    have hequivalence : ((empty equivalence).insertMany as).equivalence = equivalence := by
      rw [insertMany_eq]
    rw [insertMany_concat, family_insert, ih, hequivalence, List.filter_append,
      List.filter_singleton, Atom.equivalent_comm]
    split <;> simp [*]

/-- The families are the classes of the equivalent atoms of a list. -/
structure Partition (F : AtomFamilies) (as : List Atom) : Prop where
  /-- Each has all atoms that are equivalent to the one that opened it, in the order of the list,
  and they come in the order of those. -/
  families : F.classes.map (·.2) = (firsts F.equivalence as).map fun first =>
    as.filter (first.atom.equivalent F.equivalence)
  /-- No atom is lost, and none is in two families or twice in one. -/
  perm : (F.classes.flatMap (·.2)).Perm as
  /-- Each is the class of any of its members. -/
  eq_filter : ∀ c ∈ F.classes, ∀ a ∈ c.2, c.2 = as.filter (a.equivalent F.equivalence)
  representatives : F.representatives = (firsts F.equivalence as).map (·.atom)
  inequivalent : F.representatives.Pairwise fun a b => a.equivalent F.equivalence b = false
  isNew_iff : ∀ a, F.isNew a = true ↔ ∀ b ∈ as, b.equivalent F.equivalence a = false
  family : ∀ a, F.family a = as.filter (a.equivalent F.equivalence)

theorem representatives_classesOf (equivalence : Equivalence) (as : List Atom) :
    representatives ⟨equivalence, classesOf equivalence as⟩ =
      (firsts equivalence as).map (·.atom) := by
  rw [representatives, classesOf, List.filterMap_map, ← List.filterMap_eq_map]
  exact List.filterMap_congr fun first hfirst => head?_of_mem_firsts hfirst

theorem partition_insertMany (equivalence : Equivalence) (as : List Atom) :
    ((empty equivalence).insertMany as).Partition as := by
  have hfamily := family_insertMany equivalence as
  rw [insertMany_eq] at hfamily ⊢
  constructor
  case families =>
    rw [classesOf, List.map_map]
    rfl
  case perm => exact flatMap_classesOf_perm equivalence as
  case eq_filter =>
    intro c hc a ha
    obtain ⟨first, -, rfl⟩ := List.mem_map.1 hc
    rw [Atom.equivalent_congr (List.mem_filter.1 ha).2]
  case representatives => exact representatives_classesOf equivalence as
  case inequivalent =>
    rw [representatives_classesOf, List.pairwise_map]
    exact pairwise_firsts
  case isNew_iff =>
    intro a
    rw [isNew, any_classesOf, Bool.not_eq_true', List.any_eq_false]
    simp only [Bool.not_eq_true, Atom.equivalent_comm (a := a)]
  case family => exact hfamily

/-- The families that are filled one atom after another are the classes of equivalent atoms, and
those that an index finds are the same. -/
theorem insertMany_fills_classes (equivalence : Equivalence) (as : List Atom) :
    let F := (empty equivalence).insertMany as
    let x := (FamilyIndex.empty equivalence).insertMany as
    F.equivalence = equivalence ∧ F.Partition as ∧ x.families = F.classes.map (·.2) ∧
      ∀ a, x.isNew a = F.isNew a ∧ x.family a = F.family a := by
  intro F x
  have htracks : x.Tracks F := (FamilyIndex.tracks_empty equivalence).insertMany as
  refine ⟨?_, partition_insertMany equivalence as, htracks.families,
    fun a => ⟨htracks.isNew a, htracks.family a⟩⟩
  exact congrArg AtomFamilies.equivalence (insertMany_eq equivalence as)

end AtomFamilies

end GraphQuery
