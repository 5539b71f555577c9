import GraphQuery.Proofs.Collection.Pairing
import GraphQuery.Proofs.Query.Renaming
import GraphQuery.Proofs.Traversal.Lowering
import GraphQuery.Proofs.Traversal.Renaming

/-!
# Demands

A demand is what constraints are made for before the thing that it leaves unnamed, if there is one, is
given a variable of the supply. Which variable that is does not matter: demands that are renamings of
each other have constraints that are, whatever supplies hand out and in whatever order the demands
are met.
-/

namespace GraphQuery

variable {U : Type*} {f g : Variable → Variable} {E : Variable → Variable → Prop} {m n : Supply}

section Computations

variable {α β γ : Type} {m : Type → Type} [Monad m] [LawfulMonad m]

theorem flatten_mapM_singleton (g : α → m β) (l : List α) :
    List.flatten <$> l.mapM (fun x => ([·]) <$> g x) = l.mapM g := by
  induction l with
  | nil => simp
  | cons x l ih =>
    rw [List.mapM_cons, List.mapM_cons, ← ih]
    simp [map_bind, bind_map_left]

theorem flatten_mapM_flatMap (f : α → List β) (g : β → m (List γ)) (l : List α) :
    List.flatten <$> (l.flatMap f).mapM g =
      List.flatten <$> l.mapM fun x => List.flatten <$> (f x).mapM g := by
  induction l with
  | nil => simp
  | cons x l ih =>
    have hrest (front : List γ) : (fun back => front ++ back.flatten) <$> (l.flatMap f).mapM g =
        (fun back => front ++ back.flatten) <$>
          l.mapM fun x => List.flatten <$> (f x).mapM g := by
      have hfront := congrArg ((front ++ ·) <$> ·) ih
      rwa [← comp_map, ← comp_map] at hfront
    rw [List.flatMap_cons, List.mapM_append, List.mapM_cons]
    simp [map_bind, bind_map_left, hrest]

end Computations

/-- What one or two constraints are made for. -/
inductive Demand where
  /-- One constraint, which leaves nothing unnamed. -/
  | plain (set : FragmentSet)
  /-- An instance of some type, which is left unnamed, below a type. -/
  | isa (member type : Variable)
  /-- A player of a relation; the edge to it is left unnamed. -/
  | role (relation : Variable) (played : Option Label) (player : Variable)

namespace Demand

/-- The demand for an instance of a type, of the type itself if `direct`. -/
def ofIsa (member type : Variable) (direct : Bool) : Demand :=
  if direct then plain (.bothWays .isa (.isa member type)) else isa member type

/-- The variables that a demand names. -/
def vars : Demand → List Variable
  | plain set => set.vars
  | isa member type => [member, type]
  | role relation _ player => [relation, player]

theorem mem_vars_ofIsa {member type v : Variable} {direct : Bool} :
    v ∈ (ofIsa member type direct).vars ↔ v = member ∨ v = type := by
  cases direct with
  | false => simp [ofIsa, vars]
  | true =>
    simp [ofIsa, vars, FragmentSet.mem_vars_bothWays, Edge.source, Edge.target, Edge.own?]

/-- Whether a demand leaves something unnamed. -/
def draws : Demand → Bool
  | plain _ => false
  | isa .. | role .. => true

/-- The constraints, with a variable for what is left unnamed. -/
def sets (own : Variable) : Demand → List FragmentSet
  | plain set => [set]
  | isa member type => [.bothWays .isa (.isa member own), .bothWays .isa (.sub own type false)]
  | role relation played player => [.bothWays .relation (.role relation own played player)]

/-- The constraints, with a fresh variable where one is needed. -/
def fragments (d : Demand) : Fresh (List FragmentSet) :=
  if d.draws then return d.sets (← Supply.fresh) else return d.sets default

/-- Demands that are met one after the other are each met with a variable of its own. -/
theorem exists_numbered (ds : List Demand) (m : Supply) :
    ∃ zs : List (Demand × Variable), zs.map Prod.fst = ds ∧
      ((ds.mapM fragments).run m).1.flatten = zs.flatMap (fun z => z.1.sets z.2) ∧
      (zs.filter (·.1.draws)).map Prod.snd = m.drawn (ds.countP draws) := by
  induction ds generalizing m with
  | nil => exact ⟨[], rfl, rfl, rfl⟩
  | cons d ds ih =>
    obtain ⟨own, hrun, hown⟩ : ∃ own : Variable,
        d.fragments.run m = (d.sets own, m.after (if d.draws then 1 else 0)) ∧
          (if d.draws then [own] else []) = m.drawn (if d.draws then 1 else 0) := by
      by_cases hd : d.draws = true
      · refine ⟨(Supply.fresh.run m).1, ?_, ?_⟩
        · rw [fragments, if_pos hd, if_pos hd]
          rfl
        · rw [if_pos hd, if_pos hd, m.run_fresh.2]
      · refine ⟨default, ?_, ?_⟩
        · rw [fragments, if_neg hd, if_neg hd, m.after_zero]
          rfl
        · rw [if_neg hd, if_neg hd]
          rfl
    obtain ⟨zs, hzs, hsets, hdrawn⟩ := ih (m.after (if d.draws then 1 else 0))
    have hcons : (((d :: ds).mapM fragments).run m).1 = d.sets own ::
        ((ds.mapM fragments).run (m.after (if d.draws then 1 else 0))).1 := by
      rw [List.mapM_cons, StateT.run_bind, hrun]
      rfl
    refine ⟨(d, own) :: zs, congrArg (d :: ·) hzs, ?_, ?_⟩
    · rw [hcons, List.flatten_cons, hsets, List.flatMap_cons]
    · rw [List.countP_cons, Nat.add_comm, ← Supply.drawn_append, ← hown, ← hdrawn,
        List.filter_cons]
      split <;> rfl

def rename (f : Variable → Variable) : Demand → Demand
  | plain set => plain (set.rename f)
  | isa member type => isa (f member) (f type)
  | role relation played player => role (f relation) played (f player)

theorem rename_ofIsa (member type : Variable) (direct : Bool) :
    (ofIsa member type direct).rename f = ofIsa (f member) (f type) direct := by
  cases direct <;> rfl

theorem draws_rename (d : Demand) : (d.rename f).draws = d.draws := by
  cases d <;> rfl

/-- The same demand, or the one for a type that is related. -/
inductive RetypedTo (E : Variable → Variable → Prop) : Demand → Demand → Prop where
  | plain {s t : FragmentSet} (h : s.RetypedTo E t) : RetypedTo E (plain s) (plain t)
  | isa {member v w : Variable} (h : E v w) : RetypedTo E (isa member v) (isa member w)
  | role (relation : Variable) (played : Option Label) (player : Variable) :
    RetypedTo E (role relation played player) (role relation played player)

theorem RetypedTo.ofIsa {member v w : Variable} (direct : Bool) (h : E v w) :
    (ofIsa member v direct).RetypedTo E (ofIsa member w direct) := by
  cases direct with
  | false => exact .isa h
  | true => exact .plain (.bothWays (.isa h))

theorem RetypedTo.draws_eq {c d : Demand} (h : c.RetypedTo E d) : c.draws = d.draws := by
  cases h <;> rfl

theorem RetypedTo.sets {c d : Demand} (h : c.RetypedTo E d) (own : Variable) :
    List.Forall₂ (FragmentSet.RetypedTo E) (c.sets own) (d.sets own) := by
  cases h with
  | plain h => exact .cons h .nil
  | isa h => exact .cons (.refl _) (.cons (.bothWays (.sub h)) .nil)
  | role relation played player => exact .cons (.refl _) .nil

theorem sets_rename {d : Demand} (own : Variable) (h : ∀ v ∈ d.vars, f v = g v) :
    (d.sets own).map (·.rename f) = (d.rename g).sets (f own) := by
  cases d with
  | plain set => exact congrArg ([·]) (FragmentSet.rename_congr h)
  | isa member type =>
    rw [sets, rename, sets, ← h member List.mem_cons_self, ← h type (by simp [vars])]
    rfl
  | role relation played player =>
    rw [sets, rename, sets, ← h relation List.mem_cons_self, ← h player (by simp [vars])]
    rfl

theorem sets_eq_of_not_draws {d : Demand} (h : d.draws = false) (own own' : Variable) :
    d.sets own = d.sets own' := by
  cases d with
  | plain set => rfl
  | _ => cases h

/-- That what is demanded is there. -/
def Holds (g : Graph U) (a : Variable → U) : Demand → Prop
  | plain set => set.Holds g a
  | isa member type => g.instanceOf false (a member) (a type)
  | role relation played player => ∃ edge, g.playing played (a relation) edge (a player)

theorem holds_ofIsa {graph : Graph U} {a : Variable → U} {member type : Variable} {direct : Bool} :
    (ofIsa member type direct).Holds graph a ↔
      graph.instanceOf direct (a member) (a type) := by
  cases direct with
  | false => rfl
  | true => exact FragmentSet.holds_bothWays

theorem holds_rename (graph : Graph U) (d : Demand) (a : Variable → U) :
    (d.rename f).Holds graph a ↔ d.Holds graph (a ∘ f) := by
  cases d with
  | plain set => exact set.holds_rename graph a
  | _ => rfl

/-- Types that are the same concept can be put for each other. -/
theorem RetypedTo.holds {c d : Demand} (h : c.RetypedTo E d) {graph : Graph U} {a : Variable → U}
    (hE : ∀ v w, E v w → a v = a w) (hd : d.Holds graph a) : c.Holds graph a := by
  cases h with
  | plain h => exact h.holds hE hd
  | @isa member v w h =>
    rw [Holds, hE v w h]
    exact hd
  | role => exact hd

/-- Demands that correspond draw variables that can be paired off. -/
theorem drawn_zip {zs ws : List (Demand × Variable)}
    (h : List.Forall₂ (fun z w => (z.1.rename f).RetypedTo E w.1) zs ws) :
    let own := ((zs.zip ws).filter (·.1.1.draws)).map fun p => (p.1.2, p.2.2)
    own.map Prod.fst = (zs.filter (·.1.draws)).map Prod.snd ∧
      own.map Prod.snd = (ws.filter (·.1.draws)).map Prod.snd := by
  have hdraws : (zs.zip ws).filter (·.1.1.draws) = (zs.zip ws).filter (·.2.1.draws) := by
    apply List.filter_congr
    rintro ⟨z, w⟩ hmem
    exact (draws_rename z.1).symm.trans ((List.forall₂_iff_zip.1 h).2 hmem).draws_eq
  constructor
  · conv_rhs => rw [← List.map_fst_zip (Nat.le_of_eq h.length_eq), List.filter_map, List.map_map]
    rw [List.map_map]
    rfl
  · conv_rhs => rw [← List.map_snd_zip (Nat.le_of_eq h.length_eq.symm), List.filter_map, List.map_map]
    rw [List.map_map, hdraws]
    rfl

/-- A map of the variables that two lists of demands name extends to the variables that two supplies
hand out for them, if these are fresh. -/
theorem exists_perm {cs ds : List Demand} (hf : Function.Injective f)
    (h : PairedUp (RetypedTo E) (cs.map (rename f)) ds)
    (hm : m.FreshTo (cs.flatMap vars) (cs.countP draws))
    (hn : n.FreshTo ((cs.flatMap vars).map f) (ds.countP draws)) :
    ∃ σ : Equiv.Perm Variable, PairedUp (FragmentSet.RetypedTo E)
      (((cs.mapM fragments).run m).1.flatten.map (·.rename σ))
      ((ds.mapM fragments).run n).1.flatten := by
  obtain ⟨zs, rfl, hsets, hdrawn⟩ := exists_numbered cs m
  obtain ⟨ws, rfl, hsets', hdrawn'⟩ := exists_numbered ds n
  rw [PairedUp.map_left_iff, PairedUp.map_iff] at h
  obtain ⟨ws', hperm, hpairs⟩ := h
  -- The variables that stand for the same thing left unnamed.
  let own := ((zs.zip ws').filter (·.1.1.draws)).map fun p => (p.1.2, p.2.2)
  obtain ⟨hfst, hsnd⟩ := drawn_zip hpairs
  rw [hdrawn] at hfst
  have hsnd' := (hperm.filter (·.1.draws)).map Prod.snd
  rw [← hsnd, hdrawn'] at hsnd'
  let named := (zs.map Prod.fst).flatMap vars
  have hnew : ∀ v ∈ named, v ∉ own.map Prod.fst ∧ f v ∉ own.map Prod.snd := by
    intro v hv
    rw [hfst, hsnd'.mem_iff]
    exact ⟨fun h => hm.not_mem v h hv, fun h => hn.not_mem (f v) h (List.mem_map_of_mem hv)⟩
  obtain ⟨σ, hσf, hσ⟩ := Renaming.exists_perm_extending (fun _ _ _ _ h => hf h)
    (hfst ▸ hm.nodup) (hsnd'.nodup_iff.2 hn.nodup) hnew
  refine ⟨σ, ?_⟩
  rw [hsets, hsets', List.map_flatMap]
  refine PairedUp.flatMap ⟨ws', hperm, List.forall₂_iff_zip.2 ⟨hpairs.length_eq, ?_⟩⟩
  intro z w hzw
  have hz : z.1 ∈ zs.map Prod.fst := List.mem_map_of_mem (List.of_mem_zip hzw).1
  have hretyped := (List.forall₂_iff_zip.1 hpairs).2 hzw
  rw [sets_rename (g := f) z.2 fun v hv => hσf v (List.mem_flatMap.2 ⟨z.1, hz, hv⟩)]
  have hown : w.1.sets (σ z.2) = w.1.sets w.2 := by
    by_cases hdraws : z.1.draws = true
    · have hmem : (z.2, w.2) ∈ own :=
        List.mem_map.2 ⟨(z, w), List.mem_filter.2 ⟨hzw, hdraws⟩, rfl⟩
      rw [hσ _ hmem]
    · apply sets_eq_of_not_draws
      rw [← hretyped.draws_eq, draws_rename, Bool.eq_false_iff]
      exact hdraws
  rw [← hown]
  exact .of_forall₂ (hretyped.sets _)

end Demand

end GraphQuery
