import GraphQuery.Proofs.Query.Renaming
import GraphQuery.Proofs.Statement.Matching
import GraphQuery.Proofs.Statement.Splitting
import Mathlib.Data.List.Pairwise

/-!
# Variables side by side

The variables of equal statements can be put side by side, alike ones beside each other, such that
the one statement becomes the other when each variable is replaced by the one beside it. What is to
hold of such a replacement is put together along the statements. Where no slot stands at two places,
some permutation of all variables is one.
-/

namespace GraphQuery

variable {α : Type} {vs vs' ws ws' : List Variable} {P Q : (Variable → Variable) → Prop}

/-- The variables of two lists can be put side by side, alike ones beside each other, so that every
map that carries those of the first to those beside them is as `P` says. -/
def Aligned (vs ws : List Variable) (P : (Variable → Variable) → Prop) : Prop :=
  ∃ us : List Variable, us.Perm ws ∧ List.Forall₂ (fun v w => v.alike w = true) vs us ∧
    ∀ f : Variable → Variable, List.Forall₂ (fun v w => f v = w) vs us → P f

namespace Aligned

theorem nil (h : ∀ f, P f) : Aligned [] [] P := ⟨[], .nil, .nil, fun f _ => h f⟩

theorem singleton {v w : Variable} (h : v.alike w = true) (hP : ∀ f, f v = w → P f) :
    Aligned [v] [w] P :=
  ⟨[w], .refl _, .cons h .nil, fun f hf => hP f (List.forall₂_cons.1 hf).1⟩

theorem imp (h : Aligned vs ws P) (hPQ : ∀ f, P f → Q f) : Aligned vs ws Q := by
  obtain ⟨us, hperm, halike, hP⟩ := h
  exact ⟨us, hperm, halike, fun f hf => hPQ f (hP f hf)⟩

theorem perm_right (h : Aligned vs ws P) (hperm : ws.Perm ws') : Aligned vs ws' P := by
  obtain ⟨us, hus, halike, hP⟩ := h
  exact ⟨us, hus.trans hperm, halike, hP⟩

theorem append (h : Aligned vs ws P) (h' : Aligned vs' ws' Q) :
    Aligned (vs ++ vs') (ws ++ ws') fun f => P f ∧ Q f := by
  obtain ⟨us, hperm, halike, hP⟩ := h
  obtain ⟨us', hperm', halike', hQ⟩ := h'
  refine ⟨us ++ us', hperm.append hperm', List.rel_append halike halike', fun f hf => ?_⟩
  have hfront := List.forall₂_take_append _ _ _ hf
  have hback := List.forall₂_drop_append _ _ _ hf
  rw [← halike.length_eq, List.take_left] at hfront
  rw [← halike.length_eq, List.drop_left] at hback
  exact ⟨hP f hfront, hQ f hback⟩

/-- What has its variables aligned pair by pair has them aligned as a whole. -/
theorem flatMap {g : α → List Variable} {r : (Variable → Variable) → α → α → Prop} {xs ys : List α}
    (h : PairedUp (fun x y => Aligned (g x) (g y) fun f => r f x y) xs ys) :
    Aligned (xs.flatMap g) (ys.flatMap g) fun f => PairedUp (r f) xs ys := by
  obtain ⟨zs, hzs, hpairs⟩ := h
  have hzip : Aligned (xs.flatMap g) (zs.flatMap g) fun f => List.Forall₂ (r f) xs zs := by
    clear hzs
    induction hpairs with
    | nil => exact nil fun _ => .nil
    | cons hxy _ ih => exact (hxy.append ih).imp fun f hf => .cons hf.1 hf.2
  exact (hzip.imp fun f hf => ⟨zs, hzs, hf⟩).perm_right (hzs.flatMap_right g)

/-- Where no unnamed variable stands at two places, some permutation carries all to those beside
them. -/
theorem exists_perm (h : Aligned vs ws P) (hvs : (unnamed vs).Nodup) (hws : (unnamed ws).Nodup) :
    ∃ σ : Equiv.Perm Variable, P σ := by
  obtain ⟨us, hperm, halike, hP⟩ := h
  have hnamed : List.Forall₂ (fun v w => v.isNamed = true → id v = w) vs us :=
    halike.imp fun v w hvw hv => Variable.eq_of_alike hvw hv
  obtain ⟨f, hf, hmap⟩ := exists_map_of_forall₂ hnamed fun v hv => by
    have hcount := List.nodup_iff_count_le_one.1 hvs v
    rwa [unnamed, List.count_filter (by simpa using hv)] at hcount
  have hfixed {v : Variable} (hv : v.isNamed = true) : f v = v := hf v (.inr hv)
  have hus : us = vs.map f := by
    rw [← List.forall₂_eq_eq_eq, List.forall₂_map_right_iff]
    exact hmap.flip.imp fun _ _ h => h.symm
  have hkept : ∀ v ∈ vs, (f v).isNamed = v.isNamed := by
    rw [hus, List.forall₂_map_right_iff, List.forall₂_same] at halike
    exact fun v hv => (Variable.isNamed_eq_of_alike (halike v hv)).symm
  have hnodup : ((unnamed vs).map f).Nodup := by
    have hfilter : unnamed us = (unnamed vs).map f := by
      rw [hus, unnamed, unnamed, List.filter_map]
      exact congrArg _ (List.filter_congr fun v hv => congrArg (!·) (hkept v hv))
    rw [← hfilter]
    exact (hperm.filter _).nodup_iff.2 hws
  have hinj : ∀ v ∈ vs, ∀ w ∈ vs, f v = f w → v = w := by
    intro v hv w hw hvw
    have hsame : v.isNamed = w.isNamed := by rw [← hkept v hv, ← hkept w hw, hvw]
    cases hname : v.isNamed with
    | true => rw [← hfixed hname, hvw, hfixed (hsame.symm.trans hname)]
    | false =>
      exact List.inj_on_of_nodup_map hnodup (mem_unnamed.2 ⟨hv, hname⟩)
        (mem_unnamed.2 ⟨hw, hsame.symm.trans hname⟩) hvw
  obtain ⟨σ, hσ⟩ := Renaming.exists_perm_of_injOn hinj
  refine ⟨σ, hP σ ?_⟩
  rw [hus, List.forall₂_map_right_iff, List.forall₂_same]
  exact hσ

end Aligned

namespace Statement

variable {s t : Statement} {R : Property → Property → Prop}

/-- The first properties of a kind, if both statements have one, are equal. -/
def LeadsLike (kind : PropertyKind) (s t : Statement) : Prop :=
  ∀ p ∈ s.property? kind, ∀ q ∈ t.property? kind, (p == q) = true

instance (kind : PropertyKind) (s t : Statement) : Decidable (s.LeadsLike kind t) :=
  inferInstanceAs (Decidable (∀ p ∈ s.property? kind, _))

/-- What is paired with properties of different shapes has different shapes. -/
theorem eq_of_beq_of_pairedUp {ps qs : List Property}
    (h : PairedUp (fun p q => (p == q) = true) ps qs)
    (hps : ps.Pairwise fun p q => (q == p) = false) {q q' : Property} (hq : q ∈ qs) (hq' : q' ∈ qs)
    (hqq : (q == q') = true) : q = q' := by
  obtain ⟨zs, hperm, hpairs⟩ := h
  have hzs : zs.Pairwise fun p q => (q == p) = false := by
    clear hperm hq hq'
    induction hpairs with
    | nil => exact .nil
    | @cons p z ps zs hpz hpairs ih =>
      obtain ⟨hp, hps⟩ := List.pairwise_cons.1 hps
      refine List.pairwise_cons.2 ⟨fun z' hz' => Bool.eq_false_iff.2 fun heq => ?_, ih hps⟩
      obtain ⟨p', hp', hpz'⟩ := exists_of_forall₂ hpairs hz'
      have hpp : (p' == p) = true := BEq.trans hpz' (BEq.trans heq (BEq.symm hpz))
      rw [hp p' hp'] at hpp
      cases hpp
  have hsymm : Std.Symm fun p q : Property => (q == p) = false :=
    ⟨fun p q hpq => by rwa [BEq.comm]⟩
  by_contra hne
  have hdiffer := hzs.forall (hperm.mem_iff.2 hq') (hperm.mem_iff.2 hq) (Ne.symm hne)
  rw [hqq] at hdiffer
  cases hdiffer

/-- Where the first properties of a kind are equal, they are among the pairs. -/
theorem rel_property? (h : (s == t) = true) (hs : s.properties.Pairwise fun p q => (q == p) = false)
    {kind : PropertyKind} (hlead : s.LeadsLike kind t)
    (hpairs : PairedUp (fun p q => (p == q) = true ∧ R p q) s.properties t.properties) :
    Option.Rel R (s.property? kind) (t.property? kind) := by
  have hsome := property?_isSome_of_beq h kind
  cases hp : s.property? kind with
  | none =>
    have hnone : t.property? kind = none := by
      rw [← Option.not_isSome_iff_eq_none, ← hsome, hp]
      exact Bool.false_ne_true
    rw [hnone]
    exact .none
  | some p =>
    rw [hp] at hsome
    obtain ⟨q, hq⟩ := Option.isSome_iff_exists.1 hsome.symm
    obtain ⟨q', hq', hpq', hR⟩ := hpairs.exists_right (mem_properties_of_property? hp).1
    have hqq : (q == q') = true := BEq.trans (BEq.symm (hlead p hp q hq)) hpq'
    have heq : q = q' := eq_of_beq_of_pairedUp (hpairs.mono fun _ _ _ _ h => h.1) hs
      (mem_properties_of_property? hq).1 hq' hqq
    rw [hq, heq]
    exact .some hR

theorem predicate?_eq (s : Statement) :
    s.predicate? = (s.property? .value).bind Property.predicate? := by
  rw [predicate?, property?]
  induction s.properties with
  | nil => rfl
  | cons p ps ih =>
    rw [List.findSome?_cons, List.find?_cons]
    cases p with
    | value predicate => rfl
    | _ => exact ih

end Statement

end GraphQuery
