import GraphQuery.Traversal.Plan
import Mathlib.Data.List.Forall2
import Mathlib.Logic.Relation

/-!
# What statements and traversals mean

A graph relates its concepts. An assignment of concepts to variables makes properties and statements
true of the graph, and likewise the steps of a traversal; which of them hold depends on the
variables that they mention and on no others.
-/

namespace GraphQuery

/-- The relations of a graph. Concepts, types and edges to players are of one sort `U`. -/
structure Graph (U : Type*) where
  /-- That an instance is an instance of the type itself. -/
  isa : U → U → Prop
  /-- That a type is an immediate subtype of another. -/
  sub : U → U → Prop
  label : U → Label → Prop
  id : U → ConceptId → Prop
  dataType : U → ValueType → Prop
  value : U → Value → Prop
  compares : Comparator → Value → Value → Prop
  has : U → U → Prop
  /-- That an edge leads from a relation to a player. -/
  joins (relation edge player : U) : Prop
  /-- That the player at the end of an edge plays a role. -/
  plays (edge : U) (role : Label) : Prop

variable {U : Type*}

namespace Graph

variable (g : Graph U)

/-- That a type lies below another: at once if `direct`, and through any number of types if not. -/
def below (direct : Bool) : U → U → Prop :=
  if direct then g.sub else Relation.ReflTransGen g.sub

/-- That a concept is an instance of a type: of the type itself if `direct`, of any type that lies
below it if not. -/
def instanceOf (direct : Bool) (concept type : U) : Prop :=
  if direct then g.isa concept type else ∃ own, g.isa concept own ∧ g.below false own type

/-- That an edge leads to a player, in the role if one is given. -/
def playing (role : Option Label) (relation edge player : U) : Prop :=
  g.joins relation edge player ∧ ∀ l ∈ role, g.plays edge l

/-- That a concept has a value that the predicate admits. -/
def admits (predicate : ValuePredicate) (a : Variable → U) (concept : U) : Prop :=
  ∃ value, g.value concept value ∧
    match predicate.operand with
    | .constant other => g.compares predicate.comparator value other
    | .var v => ∃ other, g.value (a v) other ∧ g.compares predicate.comparator value other

end Graph

/-- That a property holds of a concept. What an attribute's own statement says is apart. -/
def Property.Holds (g : Graph U) (a : Variable → U) (concept : U) : Property → Prop
  | isa type direct => g.instanceOf direct concept (a type.var)
  | sub superType direct => g.below direct concept (a superType.var)
  | label l => g.label concept l
  | id number => g.id concept number
  | dataType type => g.dataType concept type
  | has _ owned => g.has concept (a owned.var)
  | relation players => ∀ rp ∈ players, ∃ edge, g.playing rp.role concept edge (a rp.player)
  | value predicate => g.admits predicate a concept
  | neq other => concept ≠ a other

/-- That what a statement and those that it carries say of their variables holds, polarity apart. -/
def Statement.Holds (g : Graph U) (a : Variable → U) (s : Statement) : Prop :=
  ∀ t ∈ s.withInner, ∀ p ∈ t.properties, p.Holds g a (a t.var)

/-- The variables that a statement and those that it carries mention. -/
def Statement.allVars (s : Statement) : List Variable := s.withInner.flatMap (·.vars)

/-- The variables that statements mention at any depth. -/
def Statement.varsOf (ss : List Statement) : List Variable := ss.flatMap (·.allVars)

theorem Statement.mem_vars {s : Statement} {v : Variable} :
    v ∈ s.vars ↔ v = s.var ∨ ∃ p ∈ s.properties, v ∈ p.vars := by
  obtain ⟨var, polarity, properties⟩ := s
  rw [vars, List.mem_eraseDups, List.mem_cons, Property.varsOf_eq_flatMap, List.mem_flatMap]

theorem Statement.allVars_withPolarity (s : Statement) (polarity : Polarity) :
    (s.withPolarity polarity).allVars = s.allVars := by
  obtain ⟨var, _, properties⟩ := s
  simp only [allVars, withInner, withPolarity, inner, List.flatMap_cons, vars]

theorem Statement.allVars_negated (s : Statement) : s.negated.allVars = s.allVars :=
  s.allVars_withPolarity s.polarity.flip

theorem Graph.admits_congr (g : Graph U) {a b : Variable → U} {predicate : ValuePredicate}
    (h : ∀ v ∈ predicate.operand.var?.toList, a v = b v) (concept : U) :
    g.admits predicate a concept ↔ g.admits predicate b concept := by
  obtain ⟨comparator, operand⟩ := predicate
  cases operand with
  | constant value => rfl
  | var v =>
    have hv : a v = b v := h v List.mem_cons_self
    simp only [admits, hv]

theorem Property.holds_congr {g : Graph U} {a b : Variable → U} {p : Property}
    (h : ∀ v ∈ p.vars, a v = b v) (concept : U) : p.Holds g a concept ↔ p.Holds g b concept := by
  cases p with
  | isa type direct =>
    have htype : a type.var = b type.var := h _ (by simp [vars])
    simp only [Holds, htype]
  | sub superType direct =>
    have htype : a superType.var = b superType.var := h _ (by simp [vars])
    simp only [Holds, htype]
  | label => rfl
  | id => rfl
  | dataType => rfl
  | has type owned =>
    have howned : a owned.var = b owned.var := h _ (Statement.mem_vars.2 (.inl rfl))
    simp only [Holds, howned]
  | relation players =>
    refine forall₂_congr fun rp hrp => ?_
    rw [h rp.player (List.mem_map.2 ⟨rp, hrp, rfl⟩)]
  | value predicate => exact g.admits_congr h concept
  | neq other =>
    have hother : a other = b other := h _ (by simp [vars])
    simp only [Holds, hother]

theorem Statement.holds_congr {g : Graph U} {a b : Variable → U} {s : Statement}
    (h : ∀ v ∈ s.allVars, a v = b v) : s.Holds g a ↔ s.Holds g b := by
  refine forall₂_congr fun t ht => forall₂_congr fun p hp => ?_
  have hmem : ∀ v ∈ t.vars, a v = b v := fun v hv => h v (List.mem_flatMap.2 ⟨t, ht, hv⟩)
  rw [hmem t.var (mem_vars.2 (.inl rfl))]
  exact Property.holds_congr (fun v hv => hmem v (mem_vars.2 (.inr ⟨p, hp, hv⟩))) _

/-- Whether a statement holds depends on its variable and properties alone. -/
theorem Statement.holds_withPolarity {g : Graph U} {a : Variable → U} {s : Statement}
    (polarity : Polarity) : (s.withPolarity polarity).Holds g a ↔ s.Holds g a := by
  obtain ⟨var, _, properties⟩ := s
  simp only [Holds, withInner, withPolarity, inner, List.forall_mem_cons]

theorem Statement.holds_negated {g : Graph U} {a : Variable → U} {s : Statement} :
    s.negated.Holds g a ↔ s.Holds g a :=
  holds_withPolarity s.polarity.flip

/-- An edge means the same whichever way it is followed. -/
def Edge.Holds (g : Graph U) (a : Variable → U) : Edge → Prop
  | isa member type => g.isa (a member) (a type)
  | sub lower upper direct => g.below direct (a lower) (a upper)
  | has owner owned => g.has (a owner) (a owned)
  | role relation edge played player => g.playing played (a relation) (a edge) (a player)

def Fragment.Holds (g : Graph U) (a : Variable → U) : Fragment → Prop
  | edge e _ => e.Holds g a
  | label var l => g.label (a var) l
  | id var number => g.id (a var) number
  | value var predicate => g.admits predicate a (a var)
  | dataType var type => g.dataType (a var) type
  | neq var other => a var ≠ a other

/-- That one of the alternatives holds. -/
def FragmentSet.Holds (g : Graph U) (a : Variable → U) (s : FragmentSet) : Prop :=
  ∃ f ∈ s.fragments, f.Holds g a

/-- There is an alternative, and all of them mean the same. -/
structure FragmentSet.Uniform (g : Graph U) (s : FragmentSet) : Prop where
  nonempty : s.fragments ≠ []
  holds_iff : ∀ f ∈ s.fragments, ∀ a, f.Holds g a ↔ s.Holds g a

theorem Fragment.holds_congr {g : Graph U} {a b : Variable → U} {f : Fragment}
    (h : ∀ v ∈ f.vars, a v = b v) : f.Holds g a ↔ f.Holds g b := by
  cases f with
  | edge e direction =>
    have hends : a e.source = b e.source ∧ a e.target = b e.target := by
      cases direction
      · exact ⟨h _ (by simp [vars, start]), h _ (by simp [vars, finish?])⟩
      · exact ⟨h _ (by simp [vars, finish?]), h _ (by simp [vars, start])⟩
    have hown : ∀ v ∈ e.own?, a v = b v := fun v hv => h v (by simp_all [vars, others])
    cases e <;> simp_all [Holds, Edge.Holds, Edge.source, Edge.target, Edge.own?]
  | label var l =>
    have hvar : a var = b var := h _ List.mem_cons_self
    simp only [Holds, hvar]
  | id var number =>
    have hvar : a var = b var := h _ List.mem_cons_self
    simp only [Holds, hvar]
  | value var predicate =>
    have hvar : a var = b var := h _ List.mem_cons_self
    simp only [Holds, hvar]
    exact g.admits_congr (fun v hv => h v (by simp_all [vars, others])) _
  | dataType var type =>
    have hvar : a var = b var := h _ List.mem_cons_self
    simp only [Holds, hvar]
  | neq var other =>
    have hvar : a var = b var := h _ List.mem_cons_self
    have hother : a other = b other := h _ (by simp [vars, others])
    simp only [Holds, hvar, hother]

theorem FragmentSet.holds_congr {g : Graph U} {a b : Variable → U} {s : FragmentSet}
    (h : ∀ v ∈ s.vars, a v = b v) : s.Holds g a ↔ s.Holds g b := by
  refine exists_congr fun f => and_congr_right fun hf => Fragment.holds_congr fun v hv => h v ?_
  exact List.mem_eraseDups.2 (List.mem_flatMap.2 ⟨f, hf, hv⟩)

theorem FragmentSet.mem_vars_bothWays {kind : PropertyKind} {e : Edge} {v : Variable} :
    v ∈ (FragmentSet.bothWays kind e).vars ↔ v = e.source ∨ v = e.target ∨ v ∈ e.own? := by
  simp only [vars, bothWays, List.mem_eraseDups, Fragment.vars, Fragment.start, Fragment.others,
    Fragment.finish?, List.mem_flatMap, List.mem_cons, List.not_mem_nil, or_false,
    exists_eq_or_imp, exists_eq_left, List.mem_append, Option.mem_toList, Option.mem_def,
    Option.some.injEq]
  grind

theorem FragmentSet.mem_vars_one {kind : PropertyKind} {f : Fragment} {v : Variable} :
    v ∈ (FragmentSet.mk kind [f]).vars ↔ v ∈ f.vars := by
  simp [vars]

/-- That some alternative of each constraint holds. -/
def TraversalPlan.Holds (g : Graph U) (a : Variable → U) (plan : TraversalPlan) : Prop :=
  ∀ s ∈ plan.sets, s.Holds g a

/-- Steps that a traversal can take, one for each constraint. -/
def TraversalPlan.Chooses (plan : TraversalPlan) (steps : List Fragment) : Prop :=
  List.Forall₂ (fun s f => f ∈ s.fragments) plan.sets steps

/-- Whichever way its edges are followed, a plan means the same. -/
theorem TraversalPlan.Chooses.holds_iff {g : Graph U} {a : Variable → U} {plan : TraversalPlan}
    {steps : List Fragment} (hsteps : plan.Chooses steps) (h : ∀ s ∈ plan.sets, s.Uniform g) :
    (∀ f ∈ steps, f.Holds g a) ↔ plan.Holds g a := by
  obtain ⟨sets⟩ := plan
  simp only [Chooses, TraversalPlan.Holds] at hsteps h ⊢
  induction hsteps with
  | nil => simp
  | cons hf _ ih =>
    obtain ⟨hs, hsets⟩ := List.forall_mem_cons.1 h
    rw [List.forall_mem_cons, List.forall_mem_cons, hs.holds_iff _ hf, ih hsets]

end GraphQuery
