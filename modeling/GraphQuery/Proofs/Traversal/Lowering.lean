import GraphQuery.Proofs.Traversal.Supply

/-!
# The fragments of statements mean what the statements say

The constraints of statements hold under an assignment only if the statements do. If the statements
hold, the constraints hold under an assignment that differs at the variables that were added to them,
as long as these are fresh: each is handed out once, so that what it is assigned for one constraint
matters to no other statement.
-/

namespace GraphQuery

variable {U : Type*}

/-- That only the variables of a list matter. -/
def DeterminedBy (vars : List Variable) (P : (Variable → U) → Prop) : Prop :=
  ∀ a b : Variable → U, (∀ v ∈ vars, a v = b v) → (P a ↔ P b)

/-- Constraints for an assertion about assignments, with the variables that a supply hands out next.
If these are fresh to a list, an assignment that makes the assertion true is as good as one that makes
the constraints true. -/
structure Renders (g : Graph U) (known : List Variable) (m : Supply) (count : Nat)
    (sets : List FragmentSet) (P : (Variable → U) → Prop) : Prop where
  uniform : ∀ s ∈ sets, s.Uniform g
  sound : ∀ a, (∀ s ∈ sets, s.Holds g a) → P a
  complete : m.FreshTo known count → ∀ a, P a →
    ∃ b, (∀ v, v ∉ m.drawn count → b v = a v) ∧ ∀ s ∈ sets, s.Holds g b

namespace Renders

variable {g : Graph U} {known : List Variable} {m n : Supply} {i j : Nat}
  {P Q : (Variable → U) → Prop}

/-- Constraints without a fresh variable. -/
theorem of_iff {sets : List FragmentSet} (huniform : ∀ s ∈ sets, s.Uniform g)
    (hP : ∀ a, (∀ s ∈ sets, s.Holds g a) ↔ P a) : Renders g known m 0 sets P :=
  ⟨huniform, fun a => (hP a).1, fun _ a ha => ⟨a, fun _ _ => rfl, (hP a).2 ha⟩⟩

/-- Constraints with a fresh variable, for which some concept can be put. -/
theorem ofFresh {sets : List FragmentSet} (huniform : ∀ s ∈ sets, s.Uniform g)
    (hsound : ∀ a, (∀ s ∈ sets, s.Holds g a) → P a)
    (hcomplete : (Supply.fresh.run m).1 ∉ known → ∀ a, P a → ∃ concept, ∀ s ∈ sets,
      s.Holds g (Function.update a (Supply.fresh.run m).1 concept)) :
    Renders g known m 1 sets P := by
  refine ⟨huniform, hsound, fun hfresh a ha => ?_⟩
  have hown : (Supply.fresh.run m).1 ∈ m.drawn 1 := by
    rw [m.run_fresh.2]
    exact List.mem_cons_self
  obtain ⟨concept, hconcept⟩ := hcomplete (hfresh.not_mem _ hown) a ha
  refine ⟨_, fun v hv => Function.update_of_ne ?_ _ _, hconcept⟩
  rintro rfl
  exact hv hown

/-- What further constraints need of fresh variables leaves the first ones as they are. -/
theorem append {ss ts : List FragmentSet} (hdraws : Draws known m n i ss)
    (hss : Renders g known m i ss P) (hts : Renders g known n j ts Q) (hQ : DeterminedBy known Q) :
    Renders g known m (i + j) (ss ++ ts) fun a => P a ∧ Q a := by
  obtain ⟨rfl, -, hvars⟩ := hdraws
  refine ⟨fun s hs => ?_, fun a ha => ?_, fun hfresh a ⟨hP, hQa⟩ => ?_⟩
  · exact (List.mem_append.1 hs).elim (hss.uniform s) (hts.uniform s)
  · rw [List.forall_mem_append] at ha
    exact ⟨hss.sound a ha.1, hts.sound a ha.2⟩
  · obtain ⟨b, hb, hbs⟩ := hss.complete hfresh.left a hP
    have hbQ : Q b := (hQ b a fun v hv => hb v fun hdrawn => hfresh.left.not_mem v hdrawn hv).2 hQa
    obtain ⟨c, hc, hcs⟩ := hts.complete hfresh.right b hbQ
    refine ⟨c, fun v hv => ?_, List.forall_mem_append.2 ⟨fun s hs => ?_, hcs⟩⟩
    · rw [← Supply.drawn_append, List.mem_append, not_or] at hv
      exact (hc v hv.2).trans (hb v hv.1)
    · refine (FragmentSet.holds_congr fun v hv => hc v ?_).2 (hbs s hs)
      rcases hvars s hs v hv with hdrawn | hknown
      · exact hfresh.not_mem_right hdrawn
      · exact fun hdrawn => hfresh.right.not_mem v hdrawn hknown

/-- The constraints for all members of a list, one after the other. -/
theorem mapM {α β : Type} {f : α → Fresh β} {S : β → List FragmentSet} {count : α → Nat}
    {R : α → (Variable → U) → Prop} {l : List α}
    (hdraws : ∀ x ∈ l, ∀ n : Supply,
      Draws known n ((f x).run n).2 (count x) (S ((f x).run n).1))
    (h : ∀ x ∈ l, ∀ n : Supply, Renders g known n (count x) (S ((f x).run n).1) (R x))
    (hR : ∀ x ∈ l, DeterminedBy known (R x)) (m : Supply) :
    Renders g known m (l.map count).sum (((l.mapM f).run m).1.flatMap S)
      fun a => ∀ x ∈ l, R x a := by
  induction l generalizing m with
  | nil =>
    have hnil : Renders g known m 0 [] fun a => ∀ x ∈ [], R x a := of_iff nofun (by simp)
    exact hnil
  | cons x l ih =>
    rw [List.forall_mem_cons] at hdraws h hR
    have hall : DeterminedBy known fun a => ∀ y ∈ l, R y a :=
      fun a b hab => forall₂_congr fun y hy => hR.2 y hy a b hab
    simp only [List.mapM_cons, List.map_cons, List.sum_cons, List.forall_mem_cons]
    exact append (hdraws.1 m) (h.1 m) (ih hdraws.2 h.2 hR.2 _) hall

theorem flatten_mapM {α : Type} {f : α → Fresh (List FragmentSet)} {count : α → Nat}
    {R : α → (Variable → U) → Prop} {l : List α}
    (hdraws : ∀ x ∈ l, ∀ n : Supply, Draws known n ((f x).run n).2 (count x) ((f x).run n).1)
    (h : ∀ x ∈ l, ∀ n : Supply, Renders g known n (count x) ((f x).run n).1 (R x))
    (hR : ∀ x ∈ l, DeterminedBy known (R x)) (m : Supply) :
    Renders g known m (l.map count).sum ((l.mapM f).run m).1.flatten fun a => ∀ x ∈ l, R x a := by
  have hall := mapM (S := id) hdraws h hR m
  rwa [List.flatMap_id] at hall

end Renders

theorem FragmentSet.uniform_one {g : Graph U} {kind : PropertyKind} (f : Fragment) :
    (FragmentSet.mk kind [f]).Uniform g :=
  ⟨by simp, by simp [FragmentSet.Holds]⟩

theorem FragmentSet.holds_bothWays {g : Graph U} {a : Variable → U} {kind : PropertyKind}
    {e : Edge} : (FragmentSet.bothWays kind e).Holds g a ↔ e.Holds g a := by
  simp [FragmentSet.Holds, FragmentSet.bothWays, Fragment.Holds]

theorem FragmentSet.uniform_bothWays {g : Graph U} {kind : PropertyKind} (e : Edge) :
    (FragmentSet.bothWays kind e).Uniform g := by
  refine ⟨by simp [FragmentSet.bothWays], fun f hf a => ?_⟩
  rw [FragmentSet.holds_bothWays]
  have hf : f = .edge e .forward ∨ f = .edge e .backward := by simpa [bothWays] using hf
  rcases hf with rfl | rfl <;> rfl

theorem FragmentSet.uniform_neq {g : Graph U} {kind : PropertyKind} (var other : Variable) :
    (FragmentSet.mk kind [.neq var other, .neq other var]).Uniform g := by
  refine ⟨by simp, fun f hf a => ?_⟩
  have hf : f = .neq var other ∨ f = .neq other var := by simpa using hf
  rcases hf with rfl | rfl <;> simp [Holds, Fragment.Holds, ne_comm]

namespace Renders

variable {g : Graph U} {known : List Variable} {m : Supply} {P : (Variable → U) → Prop}

theorem one {kind : PropertyKind} {f : Fragment} (hP : ∀ a, f.Holds g a ↔ P a) :
    Renders g known m 0 [⟨kind, [f]⟩] P :=
  of_iff (by simp [FragmentSet.uniform_one]) (by simp [FragmentSet.Holds, hP])

theorem bothWays {kind : PropertyKind} {e : Edge} (hP : ∀ a, e.Holds g a ↔ P a) :
    Renders g known m 0 [.bothWays kind e] P :=
  of_iff (by simp [FragmentSet.uniform_bothWays]) (by simp [FragmentSet.holds_bothWays, hP])

end Renders

variable {g : Graph U} {known : List Variable}

theorem Property.determinedBy_holds {p : Property} {var : Variable} (hvar : var ∈ known)
    (hp : p.vars ⊆ known) : DeterminedBy known fun a => p.Holds g a (a var) := by
  intro a b hab
  dsimp only
  rw [hab var hvar]
  exact holds_congr (fun v hv => hab v (hp hv)) _

/-- The type of an instance lies below the type that is asked for. -/
theorem Property.renders_isa {type : TypeRef} {var : Variable} (hvar : var ∈ known)
    (htype : type.var ∈ known) (m : Supply) :
    Renders g known m 1 (((isa type false).fragments var).run m).1
      fun a => (isa type false).Holds g a (a var) := by
  have hsets : (((isa type false).fragments var).run m).1 =
      [.bothWays .isa (.isa var (Supply.fresh.run m).1),
        .bothWays .isa (.sub (Supply.fresh.run m).1 type.var false)] := rfl
  have hholds (a : Variable → U) : (∀ s ∈ (((isa type false).fragments var).run m).1, s.Holds g a) ↔
      g.isa (a var) (a (Supply.fresh.run m).1) ∧
        g.below false (a (Supply.fresh.run m).1) (a type.var) := by
    rw [hsets, List.forall_mem_cons, List.forall_mem_singleton, FragmentSet.holds_bothWays,
      FragmentSet.holds_bothWays]
    rfl
  refine .ofFresh ?_ (fun a ha => ⟨_, (hholds a).1 ha⟩) fun hfresh a ⟨own, hown⟩ => ⟨own, ?_⟩
  · simp [hsets, FragmentSet.uniform_bothWays]
  · rw [hholds, Function.update_self, Function.update_of_ne (ne_of_mem_of_not_mem hvar hfresh),
      Function.update_of_ne (ne_of_mem_of_not_mem htype hfresh)]
    exact hown

/-- A player stands at an edge of its own. -/
theorem RolePlayer.renders_fragment {rp : RolePlayer} {var : Variable} (hvar : var ∈ known)
    (hplayer : rp.player ∈ known) (m : Supply) :
    Renders g known m 1 [((rp.fragment var).run m).1]
      fun a => ∃ edge, g.playing rp.role (a var) edge (a rp.player) := by
  have hset (a : Variable → U) : (∀ s ∈ [((rp.fragment var).run m).1], s.Holds g a) ↔
      g.playing rp.role (a var) (a (Supply.fresh.run m).1) (a rp.player) := by
    rw [List.forall_mem_singleton]
    exact FragmentSet.holds_bothWays
  refine .ofFresh ?_ (fun a ha => ⟨_, (hset a).1 ha⟩) fun hfresh a ⟨edge, hedge⟩ => ⟨edge, ?_⟩
  · rw [List.forall_mem_singleton]
    exact FragmentSet.uniform_bothWays _
  · rw [hset, Function.update_self, Function.update_of_ne (ne_of_mem_of_not_mem hvar hfresh),
      Function.update_of_ne (ne_of_mem_of_not_mem hplayer hfresh)]
    exact hedge

theorem Property.renders_relation {players : List RolePlayer} {var : Variable}
    (hvar : var ∈ known) (hplayers : ∀ rp ∈ players, rp.player ∈ known) (m : Supply) :
    Renders g known m players.length (((relation players).fragments var).run m).1
      fun a => (relation players).Holds g a (a var) := by
  have hall := Renders.mapM (g := g) (f := RolePlayer.fragment var) (S := ([·]))
    (fun rp hrp => rp.draws_fragment hvar (hplayers rp hrp))
    (fun rp hrp => rp.renders_fragment hvar (hplayers rp hrp)) ?_ m
  · rw [List.flatMap_singleton', List.map_const', List.sum_replicate_nat, Nat.mul_one] at hall
    exact hall
  · intro rp hrp a b hab
    simp only [hab var hvar, hab rp.player (hplayers rp hrp)]

theorem Property.renders_fragments {p : Property} {var : Variable} (hvar : var ∈ known)
    (hp : p.vars ⊆ known) (m : Supply) :
    Renders g known m p.additions ((p.fragments var).run m).1 fun a => p.Holds g a (a var) := by
  cases p with
  | isa type direct =>
    cases direct with
    | false => exact renders_isa hvar (hp (by simp [vars])) m
    | true => exact .bothWays fun _ => .rfl
  | sub superType direct => exact .bothWays fun _ => .rfl
  | label l => exact .one fun _ => .rfl
  | id number => exact .one fun _ => .rfl
  | dataType type => exact .one fun _ => .rfl
  | has type owned => exact .bothWays fun _ => .rfl
  | relation players =>
    exact renders_relation hvar (fun rp hrp => hp (List.mem_map.2 ⟨rp, hrp, rfl⟩)) m
  | value predicate => exact .one fun _ => .rfl
  | neq other =>
    have hset : Renders g known m 0 [⟨.neq, [.neq var other, .neq other var]⟩]
        fun a => a var ≠ a other := by
      refine .of_iff (by simp [FragmentSet.uniform_neq]) ?_
      simp [FragmentSet.Holds, Fragment.Holds, eq_comm]
    exact hset

theorem Statement.determinedBy_holds {s : Statement} (h : s.allVars ⊆ known) :
    DeterminedBy known fun a => s.Holds g a :=
  fun _ _ hab => holds_congr fun v hv => hab v (h hv)

theorem Statement.determinedBy_own {s : Statement} (h : s.vars ⊆ known) :
    DeterminedBy known fun a => ∀ p ∈ s.properties, p.Holds g a (a s.var) := by
  have hvar : s.var ∈ known := h (mem_vars.2 (.inl rfl))
  refine fun a b hab => forall₂_congr fun p hp => Property.determinedBy_holds hvar ?_ a b hab
  exact fun v hv => h (mem_vars.2 (.inr ⟨p, hp, hv⟩))

theorem Statement.renders_ownFragments {s : Statement} (h : s.vars ⊆ known) (m : Supply) :
    Renders g known m s.ownAdditions (s.ownFragments.run m).1
      fun a => ∀ p ∈ s.properties, p.Holds g a (a s.var) := by
  have hvar : s.var ∈ known := h (mem_vars.2 (.inl rfl))
  have hproperty : ∀ p ∈ s.properties, p.vars ⊆ known :=
    fun p hp v hv => h (mem_vars.2 (.inr ⟨p, hp, hv⟩))
  exact Renders.flatten_mapM (fun p hp => Property.draws_fragments hvar (hproperty p hp))
    (fun p hp => Property.renders_fragments hvar (hproperty p hp))
    (fun p hp => Property.determinedBy_holds hvar (hproperty p hp)) m

theorem Statement.renders_fragments {s : Statement} (h : s.allVars ⊆ known) (m : Supply) :
    Renders g known m s.additions (s.fragments.run m).1 fun a => s.Holds g a := by
  have hmem : ∀ t ∈ s.withInner, t.vars ⊆ known :=
    fun t ht v hv => h (List.mem_flatMap.2 ⟨t, ht, hv⟩)
  exact Renders.flatten_mapM (f := ownFragments) (l := s.withInner)
    (fun t ht => draws_ownFragments (hmem t ht)) (fun t ht => renders_ownFragments (hmem t ht))
    (fun t ht => determinedBy_own (hmem t ht)) m

theorem Statement.renders_fragmentsOf {ss : List Statement} (h : ∀ s ∈ ss, s.allVars ⊆ known)
    (m : Supply) :
    Renders g known m (ss.map additions).sum ((fragmentsOf ss).run m).1
      fun a => ∀ s ∈ ss, s.Holds g a :=
  Renders.flatten_mapM (f := fragments) (fun s hs => draws_fragments (h s hs))
    (fun s hs => renders_fragments (h s hs)) (fun s hs => determinedBy_holds (h s hs)) m

end GraphQuery
