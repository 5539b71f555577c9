import GraphQuery.Proofs.Collection.Lists
import GraphQuery.Proofs.Traversal.Meaning
import GraphQuery.Proofs.Traversal.Plan
import GraphQuery.Traversal.Lowering
import Mathlib

/-!
# Variables that are added to plans

For each thing that a statement leaves unnamed its constraints have a variable that a supply has
handed out: for the very type of an instance, and for the edge to each player. All other variables
of the constraints are those of the statement. An ordered plan keeps both.

A supply that has handed out the last number begins anew. What it hands out is fresh to variables that
it has passed over, as long as it does not get that far.
-/

namespace GraphQuery

namespace Supply

variable {m : Supply} {vars : List Variable} {v : Variable} {i j count : Nat}

/-- The variables that a supply hands out next. -/
def drawn (m : Supply) (count : Nat) : List Variable :=
  (List.range count).map fun i => .generated (m.next + .ofNat i)

/-- The supply when so many variables more have been handed out. -/
def after (m : Supply) (count : Nat) : Supply := ⟨m.next + .ofNat count⟩

theorem length_drawn (m : Supply) (count : Nat) : (m.drawn count).length = count := by
  simp [drawn]

theorem after_zero (m : Supply) : m.after 0 = m :=
  congrArg Supply.mk (UInt64.add_zero m.next)

theorem after_after (m : Supply) (i j : Nat) : (m.after i).after j = m.after (i + j) := by
  simp only [after, UInt64.ofNat_add, UInt64.add_assoc]

theorem drawn_append (m : Supply) (i j : Nat) :
    m.drawn i ++ (m.after i).drawn j = m.drawn (i + j) := by
  simp only [drawn, after, List.range_add, List.map_append, List.map_map, Function.comp_def,
    UInt64.ofNat_add, UInt64.add_assoc]

theorem run_fresh (m : Supply) : (fresh.run m).2 = m.after 1 ∧ m.drawn 1 = [(fresh.run m).1] :=
  ⟨rfl, congrArg (fun number => [Variable.generated number]) (UInt64.add_zero m.next)⟩

theorem toNat_next_after (m : Supply) (count : Nat) :
    (m.after count).next.toNat = (m.next.toNat + count) % 2 ^ 64 := by
  simp [after]

/-- Up to the last number the variables that are handed out have ascending numbers. -/
theorem toNat_add_ofNat (h : m.next.toNat + count ≤ 2 ^ 64) (hi : i < count) :
    (m.next + .ofNat i).toNat = m.next.toNat + i := by
  rw [UInt64.toNat_add, UInt64.toNat_ofNat']
  omega

theorem mem_drawn (h : m.next.toNat + count ≤ 2 ^ 64) :
    v ∈ m.drawn count ↔ ∃ number, v = .generated number ∧ m.next.toNat ≤ number.toNat ∧
      number.toNat < m.next.toNat + count := by
  simp only [drawn, List.mem_map, List.mem_range]
  constructor
  · rintro ⟨i, hi, rfl⟩
    have hnumber := toNat_add_ofNat h hi
    exact ⟨_, rfl, by omega, by omega⟩
  · rintro ⟨number, rfl, hle, hlt⟩
    have hi : number.toNat - m.next.toNat < count := by omega
    refine ⟨_, hi, congrArg Variable.generated (UInt64.toNat_inj.1 ?_)⟩
    rw [toNat_add_ofNat h hi]
    omega

theorem nodup_drawn (h : m.next.toNat + count ≤ 2 ^ 64) : (m.drawn count).Nodup := by
  refine List.Nodup.map_on (fun i hi j hj hij => ?_) List.nodup_range
  have hnumber := congrArg UInt64.toNat (Variable.generated.inj hij)
  rw [toNat_add_ofNat h (List.mem_range.1 hi), toNat_add_ofNat h (List.mem_range.1 hj)] at hnumber
  omega

/-- That the variables which a supply hands out next are fresh to a list: they are distinct, and none
is in the list. -/
structure FreshTo (m : Supply) (vars : List Variable) (count : Nat) : Prop where
  nodup : (m.drawn count).Nodup
  not_mem : ∀ v ∈ m.drawn count, v ∉ vars

theorem FreshTo.mono {vars' : List Variable} (h : m.FreshTo vars count) (hvars : vars' ⊆ vars) :
    m.FreshTo vars' count :=
  ⟨h.nodup, fun v hv hmem => h.not_mem v hv (hvars hmem)⟩

theorem FreshTo.left (h : m.FreshTo vars (i + j)) : m.FreshTo vars i := by
  obtain ⟨hnodup, hnot⟩ := h
  rw [← drawn_append] at hnodup hnot
  exact ⟨hnodup.of_append_left, fun v hv => hnot v (List.mem_append_left _ hv)⟩

theorem FreshTo.right (h : m.FreshTo vars (i + j)) : (m.after i).FreshTo vars j := by
  obtain ⟨hnodup, hnot⟩ := h
  rw [← drawn_append] at hnodup hnot
  exact ⟨hnodup.of_append_right, fun v hv => hnot v (List.mem_append_right _ hv)⟩

theorem FreshTo.not_mem_right (h : m.FreshTo vars (i + j)) (hv : v ∈ m.drawn i) :
    v ∉ (m.after i).drawn j := by
  have hnodup := h.nodup
  rw [← drawn_append] at hnodup
  exact List.disjoint_of_nodup_append hnodup hv

/-- That a supply has passed over the variable: it has a name, or a lower number than the next. -/
def Knows (n : Supply) : Variable → Prop
  | .named _ => True
  | .generated number => number < n.next

theorem freshTo_of_knows (hvars : ∀ v ∈ vars, m.Knows v) (h : m.next.toNat + count ≤ 2 ^ 64) :
    m.FreshTo vars count := by
  refine ⟨nodup_drawn h, fun v hv hmem => ?_⟩
  obtain ⟨number, rfl, hle, -⟩ := (mem_drawn h).1 hv
  have hlt := UInt64.lt_iff_toNat_lt.1 (hvars _ hmem)
  omega

instance : Std.LawfulOrderMax UInt64 :=
  .of_max_le_iff
    (fun a b c => by
      change (if a ≤ b then b else a) ≤ c ↔ _
      split <;> simp only [UInt64.le_iff_toNat_le] at * <;> omega)
    (fun a b => by
      change (if a ≤ b then b else a) = a ∨ (if a ≤ b then b else a) = b
      split <;> simp)

/-- The number after those of a list and those that have been handed out before. It is one that
there is not if the last number is among them. -/
def above (m : Supply) (vars : List Variable) : Nat :=
  match (vars.filterMap Variable.number?).max? with
  | some greatest => max m.next.toNat (greatest.toNat + 1)
  | none => m.next.toNat

theorem le_above (m : Supply) (vars : List Variable) : m.next.toNat ≤ m.above vars := by
  rw [above]
  split
  · exact le_max_left ..
  · exact le_refl _

theorem lt_above {number : UInt64} (h : .generated number ∈ vars) :
    number.toNat < m.above vars := by
  have hmem : number ∈ vars.filterMap Variable.number? := List.mem_filterMap.2 ⟨_, h, rfl⟩
  rw [above]
  split
  · rename_i greatest hgreatest
    have hle := UInt64.le_iff_toNat_le.1 ((List.max?_eq_some_iff.1 hgreatest).2 _ hmem)
    omega
  · rename_i hnone
    rw [List.max?_eq_none_iff] at hnone
    rw [hnone] at hmem
    cases hmem

theorem toNat_next_reserve (m : Supply) (vars : List Variable) :
    (m.reserve vars).next.toNat = m.above vars % 2 ^ 64 := by
  have hnext := m.next.toNat_lt
  rw [reserve, above]
  cases (vars.filterMap Variable.number?).max? with
  | none =>
    dsimp only
    omega
  | some greatest =>
    have hgreatest := greatest.toNat_lt
    dsimp only
    split
    · rename_i hle
      rw [UInt64.le_iff_toNat_le] at hle
      rw [UInt64.toNat_add, max_eq_right (by omega)]
      rfl
    · rename_i hle
      rw [UInt64.le_iff_toNat_le] at hle
      omega

/-- What is handed out after some variables have been passed over is fresh to them, unless numbers run
out. -/
theorem freshTo_reserve (h : m.above vars + count ≤ 2 ^ 64) :
    (m.reserve vars).FreshTo vars count := by
  rcases Nat.eq_zero_or_pos count with rfl | hpos
  · exact ⟨.nil, nofun⟩
  · have hnext : (m.reserve vars).next.toNat = m.above vars := by
      rw [toNat_next_reserve]
      omega
    refine freshTo_of_knows (fun v hv => ?_) (hnext ▸ h)
    cases v with
    | named => trivial
    | generated number => exact UInt64.lt_iff_toNat_lt.2 (hnext ▸ lt_above hv)

end Supply

/-- The variable that was added for the constraint, if it is the one that stands for the very type of
an instance or for the edge to a player. -/
def FragmentSet.added? (s : FragmentSet) : Option Variable :=
  match s.property, s.fragments.head? with
  | .isa, some (.edge (.sub own _ _) _) => some own
  | .relation, some (.edge (.role _ edge _ _) _) => some edge
  | _, _ => none

/-- How many things a property leaves unnamed. -/
def Property.additions : Property → Nat
  | .isa _ false => 1
  | .relation players => players.length
  | _ => 0

def Statement.ownAdditions (s : Statement) : Nat := (s.properties.map Property.additions).sum

/-- How many things a statement and those that it carries leave unnamed. -/
def Statement.additions (s : Statement) : Nat := (s.withInner.map ownAdditions).sum

/-- Constraints that were made with what a supply has handed out: each of its variables was added to
one of them, as many as were needed, and all other variables are of the given list. -/
structure Draws (known : List Variable) (m n : Supply) (count : Nat)
    (sets : List FragmentSet) : Prop where
  next : n = m.after count
  added : sets.filterMap (·.added?) = m.drawn count
  vars : ∀ s ∈ sets, ∀ v ∈ s.vars, v ∈ m.drawn count ∨ v ∈ known

namespace Draws

variable {known : List Variable} {m n k : Supply} {i j : Nat} {ss ts : List FragmentSet}

theorem nil (known : List Variable) (m : Supply) : Draws known m m 0 [] :=
  ⟨m.after_zero.symm, rfl, nofun⟩

/-- A constraint to which nothing is added. -/
theorem plain {s : FragmentSet} (hadded : s.added? = none) (hvars : ∀ v ∈ s.vars, v ∈ known) :
    Draws known m m 0 [s] := by
  refine ⟨m.after_zero.symm, by simp [hadded, Supply.drawn], ?_⟩
  simpa using fun v hv => Or.inr (hvars v hv)

/-- Constraints with a fresh variable, which was added to one of them. -/
theorem ofFresh (hadded : ss.filterMap (·.added?) = [(Supply.fresh.run m).1])
    (hvars : ∀ s ∈ ss, ∀ v ∈ s.vars, v = (Supply.fresh.run m).1 ∨ v ∈ known) :
    Draws known m (Supply.fresh.run m).2 1 ss := by
  obtain ⟨hnext, hdrawn⟩ := m.run_fresh
  refine ⟨hnext, hadded.trans hdrawn.symm, fun s hs v hv => ?_⟩
  rw [hdrawn, List.mem_singleton]
  exact hvars s hs v hv

theorem append (hss : Draws known m n i ss) (hts : Draws known n k j ts) :
    Draws known m k (i + j) (ss ++ ts) := by
  obtain ⟨rfl, hadded, hvars⟩ := hss
  refine ⟨hts.next.trans (m.after_after i j), ?_, fun s hs v hv => ?_⟩
  · rw [List.filterMap_append, hadded, hts.added, Supply.drawn_append]
  · rw [← Supply.drawn_append, List.mem_append]
    rcases List.mem_append.1 hs with hs | hs
    · exact (hvars s hs v hv).imp Or.inl id
    · exact (hts.vars s hs v hv).imp Or.inr id

/-- The constraints for all members of a list, one after the other. -/
theorem mapM {α β : Type} {f : α → Fresh β} {S : β → List FragmentSet} {count : α → Nat}
    {l : List α} (h : ∀ x ∈ l, ∀ n : Supply,
      Draws known n ((f x).run n).2 (count x) (S ((f x).run n).1)) (m : Supply) :
    Draws known m ((l.mapM f).run m).2 (l.map count).sum (((l.mapM f).run m).1.flatMap S) := by
  induction l generalizing m with
  | nil => exact nil known m
  | cons x l ih =>
    rw [List.forall_mem_cons] at h
    simp only [List.mapM_cons, List.map_cons, List.sum_cons]
    exact (h.1 m).append (ih h.2 _)

theorem flatten_mapM {α : Type} {f : α → Fresh (List FragmentSet)} {count : α → Nat} {l : List α}
    (h : ∀ x ∈ l, ∀ n : Supply, Draws known n ((f x).run n).2 (count x) ((f x).run n).1)
    (m : Supply) :
    Draws known m ((l.mapM f).run m).2 (l.map count).sum ((l.mapM f).run m).1.flatten := by
  have hall := mapM (S := id) h m
  rwa [List.flatMap_id] at hall

theorem bothWays {kind : PropertyKind} {e : Edge}
    (hadded : (FragmentSet.bothWays kind e).added? = none)
    (hvars : ∀ v, v = e.source ∨ v = e.target ∨ v ∈ e.own? → v ∈ known) :
    Draws known m m 0 [.bothWays kind e] :=
  plain hadded (by simpa [FragmentSet.mem_vars_bothWays] using hvars)

theorem one {kind : PropertyKind} {f : Fragment}
    (hadded : (FragmentSet.mk kind [f]).added? = none) (hvars : ∀ v ∈ f.vars, v ∈ known) :
    Draws known m m 0 [⟨kind, [f]⟩] :=
  plain hadded (by simpa [FragmentSet.mem_vars_one] using hvars)

end Draws

/-- The edge to a player has a variable of its own. -/
theorem RolePlayer.draws_fragment {known : List Variable} {rp : RolePlayer} {var : Variable}
    (hvar : var ∈ known) (hplayer : rp.player ∈ known) (m : Supply) :
    Draws known m (Supply.fresh.run m).2 1
      [.bothWays .relation (.role var (Supply.fresh.run m).1 rp.role rp.player)] := by
  have hvars : ∀ s ∈ [FragmentSet.bothWays .relation
      (.role var (Supply.fresh.run m).1 rp.role rp.player)],
      ∀ v ∈ s.vars, v = (Supply.fresh.run m).1 ∨ v ∈ known := by
    simp [FragmentSet.mem_vars_bothWays, Edge.source, Edge.target, Edge.own?, hvar, hplayer]
  exact .ofFresh rfl hvars

theorem Property.draws_fragments {known : List Variable} {p : Property} {var : Variable}
    (hvar : var ∈ known) (hp : p.vars ⊆ known) (m : Supply) :
    Draws known m ((p.fragments var).run m).2 p.additions ((p.fragments var).run m).1 := by
  cases p with
  | isa type direct =>
    have htype : type.var ∈ known := hp (by simp [vars])
    cases direct with
    | true => exact .bothWays rfl (by simp [Edge.source, Edge.target, Edge.own?, hvar, htype])
    | false =>
      have hvars : ∀ s ∈ [FragmentSet.bothWays .isa (.isa var (Supply.fresh.run m).1),
          .bothWays .isa (.sub (Supply.fresh.run m).1 type.var false)],
          ∀ v ∈ s.vars, v = (Supply.fresh.run m).1 ∨ v ∈ known := by
        simp [FragmentSet.mem_vars_bothWays, Edge.source, Edge.target, Edge.own?, hvar, htype]
      exact .ofFresh rfl hvars
  | sub superType direct =>
    have htype : superType.var ∈ known := hp (by simp [vars])
    exact .bothWays rfl (by simp [Edge.source, Edge.target, Edge.own?, hvar, htype])
  | label l =>
    exact .one rfl (by simp [Fragment.vars, Fragment.start, Fragment.others, Fragment.finish?, hvar])
  | id number =>
    exact .one rfl (by simp [Fragment.vars, Fragment.start, Fragment.others, Fragment.finish?, hvar])
  | dataType type =>
    exact .one rfl (by simp [Fragment.vars, Fragment.start, Fragment.others, Fragment.finish?, hvar])
  | has type owned =>
    have howned : owned.var ∈ known := hp (Statement.mem_vars.2 (.inl rfl))
    exact .bothWays rfl (by simp [Edge.source, Edge.target, Edge.own?, hvar, howned])
  | relation players =>
    have hall := Draws.mapM (f := RolePlayer.fragment var) (S := ([·])) (fun rp hrp =>
      rp.draws_fragment hvar (hp (List.mem_map.2 ⟨rp, hrp, rfl⟩))) m
    rw [List.flatMap_singleton', List.map_const', List.sum_replicate_nat, Nat.mul_one] at hall
    exact hall
  | value predicate =>
    refine .one rfl fun v hv => ?_
    simp only [Fragment.vars, Fragment.start, Fragment.others, Fragment.finish?,
      Option.toList_none, List.append_nil, List.mem_cons] at hv
    rcases hv with rfl | hv
    · exact hvar
    · exact hp hv
  | neq other =>
    have hother : other ∈ known := hp (by simp [vars])
    refine .plain rfl ?_
    simp [FragmentSet.vars, Fragment.vars, Fragment.start, Fragment.others, Fragment.finish?, hvar,
      hother]

theorem Statement.draws_ownFragments {known : List Variable} {s : Statement}
    (h : s.vars ⊆ known) (m : Supply) :
    Draws known m (s.ownFragments.run m).2 s.ownAdditions (s.ownFragments.run m).1 := by
  have hvar : s.var ∈ known := h (mem_vars.2 (.inl rfl))
  exact Draws.flatten_mapM (fun p hp n => Property.draws_fragments hvar
    (fun v hv => h (mem_vars.2 (.inr ⟨p, hp, hv⟩))) n) m

theorem Statement.draws_fragments {known : List Variable} {s : Statement}
    (h : s.allVars ⊆ known) (m : Supply) :
    Draws known m (s.fragments.run m).2 s.additions (s.fragments.run m).1 :=
  Draws.flatten_mapM (f := ownFragments) (fun t ht n => draws_ownFragments
    (fun _ hv => h (List.mem_flatMap.2 ⟨t, ht, hv⟩)) n) m

theorem Statement.draws_fragmentsOf {known : List Variable} {ss : List Statement}
    (h : ∀ s ∈ ss, s.allVars ⊆ known) (m : Supply) :
    Draws known m ((fragmentsOf ss).run m).2 (ss.map additions).sum ((fragmentsOf ss).run m).1 :=
  Draws.flatten_mapM (f := fragments) (fun s hs n => draws_fragments (h s hs) n) m

namespace TraversalPlan

/-- The variables that were added to a plan, one for each constraint that has one. -/
def added (plan : TraversalPlan) : List Variable := plan.sets.filterMap (·.added?)

/-- A plan drops a constraint only if it has the same one already, to which no variable of its own
was added. -/
theorem added_ofSets_perm {ordered : Bool} {sets : List FragmentSet}
    (h : (sets.filterMap (·.added?)).Nodup) :
    (ofSets ordered sets).added.Perm (sets.filterMap (·.added?)) := by
  rw [← filterMap_eraseDups h]
  exact (ofSets_perm ordered sets).filterMap _

theorem mem_vars {plan : TraversalPlan} {v : Variable} :
    v ∈ plan.vars ↔ ∃ s ∈ plan.sets, v ∈ s.vars := by
  simp only [vars, SortedSet.mem_ofList, List.mem_flatMap]

end TraversalPlan

end GraphQuery
