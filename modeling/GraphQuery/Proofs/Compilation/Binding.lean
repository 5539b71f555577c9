import GraphQuery.Proofs.Compilation.Match
import GraphQuery.Proofs.Pattern.Acceptance
import GraphQuery.Proofs.Traversal.Slots
import GraphQuery.Proofs.Traversal.Supply

/-!
# What plans bind

A pattern is accepted by the variables that its statements mention, but a plan binds the variables of
its constraints. The two are the same except for statements that say nothing, which have no
constraint: neither does a plan bind what only they mention, nor can the plan for such a denial refer
to anything (`Compiler.compileMatch_binds_iff`).
-/

namespace GraphQuery

/-- A property that says nothing: a relation without players. -/
def Property.isVacuous : Property → Bool
  | relation players => players.isEmpty
  | isa .. | sub .. | label _ | id _ | dataType _ | has .. | value _ | neq _ => false

/-- A statement without properties, or of such as say nothing. -/
def Statement.isVacuous (s : Statement) : Bool := s.properties.all (·.isVacuous)

/-- The variables that the constraints of a property of `var` name. -/
def Property.constrained (var : Variable) : Property → List Variable
  | isa type _ => [var, type.var]
  | sub superType _ => [var, superType.var]
  | label _ | id _ | dataType _ => [var]
  | has _ owned => [var, owned.var]
  | relation players => players.flatMap fun rp => [var, rp.player]
  | value predicate => var :: predicate.operand.var?.toList
  | neq other => [var, other]

def Statement.ownConstrained (s : Statement) : List Variable :=
  s.properties.flatMap (·.constrained s.var)

/-- The variables that the constraints of a statement and of those that it carries name. -/
def Statement.constrained (s : Statement) : List Variable := s.withInner.flatMap (·.ownConstrained)

variable {v : Variable}

theorem Property.vars_of_isVacuous {p : Property} (h : p.isVacuous = true) : p.vars = [] := by
  cases p with
  | relation players => simpa [isVacuous, vars] using h
  | isa | sub | label | id | dataType | has | value | neq => cases h

theorem TypeRef.constrained_labelStatement? {type : TypeRef} {s : Statement}
    (hs : s ∈ type.labelStatement?.toList) (hv : v ∈ s.constrained) : v = type.var := by
  cases h : type.label with
  | none => simp [labelStatement?, h] at hs
  | some l =>
    have hs : s = ⟨type.var, .positive, [.label l]⟩ := by simpa [labelStatement?, h] using hs
    subst hs
    simpa [Statement.constrained, Statement.withInner, Statement.inner, Property.innerOf,
      Property.inner, Statement.ownConstrained, Property.constrained] using hv

namespace Statement

variable {s : Statement}

theorem mem_constrained : v ∈ s.constrained ↔ ∃ p ∈ s.properties, v ∈ p.constrained s.var ∨
    ∃ t ∈ p.carried, v ∈ t.constrained := by
  rw [constrained, withInner, List.flatMap_cons, List.mem_append, s.inner_eq, ownConstrained]
  simp only [Property.inner_eq, constrained, List.mem_flatMap]
  grind

theorem eq_var_of_isVacuous (h : s.isVacuous = true) (hv : v ∈ s.vars) : v = s.var := by
  rcases mem_vars.1 hv with hvar | ⟨p, hp, hv⟩
  · exact hvar
  · rw [Property.vars_of_isVacuous (List.all_eq_true.1 h p hp)] at hv
    cases hv

theorem isVacuous_eq_false_iff :
    s.isVacuous = false ↔ ∃ p ∈ s.properties, p.isVacuous = false := by
  rw [isVacuous, List.all_eq_false]
  simp

/-- If it is so of each of its properties, a statement that says something has constraints for all
variables that it mentions. -/
theorem mem_constrained_iff_of (h : ∀ p ∈ s.properties,
    (v ∈ p.constrained s.var ∨ ∃ t ∈ p.carried, v ∈ t.constrained) ↔
      p.isVacuous = false ∧ (v = s.var ∨ v ∈ p.vars)) :
    v ∈ s.constrained ↔ s.isVacuous = false ∧ v ∈ s.vars := by
  rw [mem_constrained, exists_congr fun p => and_congr_right (h p), isVacuous_eq_false_iff, mem_vars]
  constructor
  · rintro ⟨p, hp, hsays, hv⟩
    exact ⟨⟨p, hp, hsays⟩, hv.imp_right fun hv => ⟨p, hp, hv⟩⟩
  · rintro ⟨⟨p, hp, hsays⟩, rfl | ⟨q, hq, hv⟩⟩
    · exact ⟨p, hp, hsays, .inl rfl⟩
    · refine ⟨q, hq, Bool.eq_false_iff.2 fun hvacuous => ?_, .inr hv⟩
      rw [Property.vars_of_isVacuous hvacuous] at hv
      cases hv

end Statement

theorem Property.mem_constrained_iff (p : Property) (var : Variable) :
    (v ∈ p.constrained var ∨ ∃ t ∈ p.carried, v ∈ t.constrained) ↔
      p.isVacuous = false ∧ (v = var ∨ v ∈ p.vars) := by
  induction p using Property.induction generalizing var with
  | has type owned ih =>
    have howned := Statement.mem_constrained_iff_of fun p hp => ih p hp owned.var
    have hvacuous : owned.isVacuous = true → v ∈ owned.vars → v = owned.var :=
      Statement.eq_var_of_isVacuous
    have hvar : v = owned.var → v ∈ owned.vars := fun h => Statement.mem_vars.2 (.inl h)
    simp only [constrained, carried, isVacuous, vars, List.mem_cons, List.not_mem_nil, or_false,
      exists_eq_left, howned, true_and]
    grind
  | other p hp =>
    cases p with
    | isa type | sub type =>
      have hlabel : ∀ t ∈ type.labelStatement?.toList, v ∈ t.constrained → v = type.var :=
        fun t ht => TypeRef.constrained_labelStatement? ht
      simp only [constrained, carried, isVacuous, vars, List.mem_cons, List.not_mem_nil, or_false,
        true_and]
      grind
    | has => exact absurd rfl hp
    | relation players =>
      cases players with
      | nil => simp [constrained, carried, isVacuous]
      | cons rp players =>
        simp only [constrained, carried, isVacuous, vars, List.isEmpty_cons, List.mem_flatMap,
          List.mem_map, List.mem_cons, exists_eq_or_imp]
        grind
    | label | id | dataType | value | neq => simp [constrained, carried, isVacuous, vars]

/-- Constraints name all variables that a statement mentions, unless it says nothing. -/
theorem Statement.mem_constrained_iff {s : Statement} :
    v ∈ s.constrained ↔ s.isVacuous = false ∧ v ∈ s.vars :=
  mem_constrained_iff_of fun p _ => p.mem_constrained_iff s.var

/-- That constraints mention, of all named variables, just those of a list. -/
def FragmentSet.Name (sets : List FragmentSet) (vs : List Variable) : Prop :=
  ∀ v : Variable, v.isNamed = true → ((∃ s ∈ sets, v ∈ s.vars) ↔ v ∈ vs)

namespace FragmentSet.Name

theorem one {kind : PropertyKind} {f : Fragment} {vs : List Variable}
    (h : ∀ v, v ∈ f.vars ↔ v ∈ vs) : Name [⟨kind, [f]⟩] vs := by
  intro v _
  simp [mem_vars_one, h]

theorem bothWays {kind : PropertyKind} {e : Edge} {vs : List Variable}
    (h : ∀ v : Variable, v.isNamed = true →
      ((v = e.source ∨ v = e.target ∨ v ∈ e.own?) ↔ v ∈ vs)) :
    Name [.bothWays kind e] vs := by
  intro v hv
  simpa [mem_vars_bothWays] using h v hv

theorem flatMap {α β : Type} {S : β → List FragmentSet} {vs : α → List Variable} {xs : List α}
    {ys : List β} (h : List.Forall₂ (fun x y => Name (S y) (vs x)) xs ys) :
    Name (ys.flatMap S) (xs.flatMap vs) := by
  induction h with
  | nil => simp [Name]
  | cons hx hxs ih =>
    intro v hv
    simp only [List.flatMap_cons, List.mem_append, or_and_right, exists_or, hx v hv, ih v hv]

/-- The constraints for all members of a list, one after the other. -/
theorem mapM {α β : Type} {f : α → Fresh β} {S : β → List FragmentSet} {vs : α → List Variable}
    {l : List α} (h : ∀ x ∈ l, ∀ n : Supply, Name (S ((f x).run n).1) (vs x)) (m : Supply) :
    Name (((l.mapM f).run m).1.flatMap S) (l.flatMap vs) :=
  flatMap (Compiler.forall₂_run_mapM h m)

theorem flatten_mapM {α : Type} {f : α → Fresh (List FragmentSet)} {vs : α → List Variable}
    {l : List α} (h : ∀ x ∈ l, ∀ n : Supply, Name ((f x).run n).1 (vs x)) (m : Supply) :
    Name ((l.mapM f).run m).1.flatten (l.flatMap vs) := by
  have hall := mapM (S := id) h m
  rwa [List.flatMap_id] at hall

end FragmentSet.Name

theorem Variable.ne_fresh_of_isNamed {v : Variable} (hv : v.isNamed = true) (m : Supply) :
    v ≠ (Supply.fresh.run m).1 := by
  rintro rfl
  cases hv

open FragmentSet in
theorem Property.name_fragments (p : Property) (var : Variable) (m : Supply) :
    Name ((p.fragments var).run m).1 (p.constrained var) := by
  cases p with
  | isa type direct =>
    cases direct with
    | true =>
      exact .bothWays fun v _ => by simp [Edge.source, Edge.target, Edge.own?, constrained]
    | false =>
      have hsets : Name [.bothWays .isa (.isa var (Supply.fresh.run m).1),
          .bothWays .isa (.sub (Supply.fresh.run m).1 type.var false)] [var, type.var] := by
        intro v hv
        simp [mem_vars_bothWays, Edge.source, Edge.target, Edge.own?,
          Variable.ne_fresh_of_isNamed hv m]
      exact hsets
  | sub superType direct =>
    exact .bothWays fun v _ => by simp [Edge.source, Edge.target, Edge.own?, constrained]
  | label l => exact .one fun v => .rfl
  | id number => exact .one fun v => .rfl
  | dataType type => exact .one fun v => .rfl
  | has type owned =>
    exact .bothWays fun v _ => by simp [Edge.source, Edge.target, Edge.own?, constrained]
  | relation players =>
    -- The edge to a player has a fresh variable, which is not named.
    have hplayer : ∀ rp ∈ players, ∀ n : Supply,
        Name [((rp.fragment var).run n).1] [var, rp.player] := by
      intro rp hrp n
      have hset : Name [.bothWays .relation (.role var (Supply.fresh.run n).1 rp.role rp.player)]
          [var, rp.player] := by
        intro v hv
        simp [mem_vars_bothWays, Edge.source, Edge.target, Edge.own?,
          (Variable.ne_fresh_of_isNamed hv n).symm]
      exact hset
    have hall := Name.mapM (S := ([·])) hplayer m
    rw [List.flatMap_singleton'] at hall
    exact hall
  | value predicate =>
    refine .one fun v => ?_
    simp [Fragment.vars, Fragment.start, Fragment.others, Fragment.finish?, constrained]
  | neq other =>
    have hset : Name [⟨.neq, [.neq var other, .neq other var]⟩] [var, other] := by
      intro v _
      simp [FragmentSet.vars, Fragment.vars, Fragment.start, Fragment.others, Fragment.finish?,
        or_comm]
    exact hset

namespace Statement

theorem name_ownFragments (s : Statement) (m : Supply) :
    FragmentSet.Name (s.ownFragments.run m).1 s.ownConstrained :=
  FragmentSet.Name.flatten_mapM (fun p _ n => p.name_fragments s.var n) m

theorem name_fragments (s : Statement) (m : Supply) :
    FragmentSet.Name (s.fragments.run m).1 s.constrained :=
  FragmentSet.Name.flatten_mapM (f := ownFragments) (l := s.withInner)
    (fun t _ n => t.name_ownFragments n) m

theorem name_fragmentsOf (ss : List Statement) (m : Supply) :
    FragmentSet.Name ((fragmentsOf ss).run m).1 (ss.flatMap (·.constrained)) :=
  FragmentSet.Name.flatten_mapM (f := fragments) (fun s _ n => s.name_fragments n) m

end Statement

/-- That a plan mentions just the named variables of those statements that say something. -/
structure TraversalPlan.NamesWhatIsSaid (plan : TraversalPlan) (ss : List Statement) : Prop where
  mem_vars : ∀ v : Variable, v.isNamed = true →
    (v ∈ plan.vars ↔ ∃ s ∈ ss, s.isVacuous = false ∧ v ∈ s.vars)

theorem TraversalPlan.NamesWhatIsSaid.mem_vars_iff {plan : TraversalPlan} {denial : Statement}
    (h : plan.NamesWhatIsSaid [denial.negated]) (hv : v.isNamed = true) :
    v ∈ plan.vars ↔ denial.isVacuous = false ∧ v ∈ denial.vars := by
  rw [h.mem_vars v hv, Statement.mem_vars]
  simp only [List.mem_singleton, exists_eq_left, Statement.mem_vars]
  rfl

theorem Compiler.planOf_names (ss : List Statement) (c : Compiler) :
    ((planOf ss).run c).1.NamesWhatIsSaid ss := by
  constructor
  intro v hv
  have hsets := Statement.name_fragmentsOf ss c.supply v hv
  simp only [List.mem_flatMap, Statement.mem_constrained_iff] at hsets
  rw [← hsets, TraversalPlan.mem_vars]
  exact exists_congr fun s => and_congr_left fun _ => TraversalPlan.mem_ofSets

namespace CompiledConjunction

/-- That the plans of a compiled conjunction mention just the named variables of what it asserts and
denies. -/
structure NamesWhatIsSaid (k : CompiledConjunction) : Prop where
  plan : k.plan.NamesWhatIsSaid k.conjunction.positive
  denials : List.Forall₂ (fun denial plan => plan.NamesWhatIsSaid [denial.negated])
    k.conjunction.negative k.denials

/-- That the plan for what is asserted mentions all named variables that the asserted statements
mention, and each plan for a denial has one of these variables. -/
structure Binds (k : CompiledConjunction) : Prop where
  asserted : ∀ v ∈ k.conjunction.boundVars, v ∈ k.plan.vars
  denied : ∀ plan ∈ k.denials, ∃ v : Variable, v.isNamed = true ∧ v ∈ plan.vars ∧ v ∈ k.plan.vars

end CompiledConjunction

/-- That statements which say nothing make no difference: of what is asserted something is said of
their variables all the same, and nothing is denied by one of them. -/
structure Conjunction.SaysEnough (c : Conjunction) : Prop where
  asserted : ∀ s ∈ c.positive, s.isVacuous = true → s.var.isNamed = true →
    ∃ t ∈ c.positive, t.isVacuous = false ∧ s.var ∈ t.vars
  denied : ∀ denial ∈ c.negative, denial.isVacuous = false

namespace CompiledConjunction

variable {k : CompiledConjunction}

theorem NamesWhatIsSaid.asserted_iff (h : k.NamesWhatIsSaid) :
    (∀ v ∈ k.conjunction.boundVars, v ∈ k.plan.vars) ↔
      ∀ s ∈ k.conjunction.positive, s.isVacuous = true → s.var.isNamed = true →
        ∃ t ∈ k.conjunction.positive, t.isVacuous = false ∧ s.var ∈ t.vars := by
  constructor
  · intro hbinds s hs hvacuous hnamed
    have hmem : s.var ∈ k.conjunction.boundVars := List.mem_flatMap.2
      ⟨s, hs, Statement.mem_namedVars.2 ⟨Statement.mem_vars.2 (.inl rfl), hnamed⟩⟩
    exact (h.plan.mem_vars s.var hnamed).1 (hbinds s.var hmem)
  · intro hsays v hv
    obtain ⟨s, hs, hv⟩ := List.mem_flatMap.1 hv
    obtain ⟨hv, hnamed⟩ := Statement.mem_namedVars.1 hv
    rw [h.plan.mem_vars v hnamed]
    by_cases hvacuous : s.isVacuous = true
    · obtain rfl := Statement.eq_var_of_isVacuous hvacuous hv
      exact hsays s hs hvacuous hnamed
    · exact ⟨s, hs, Bool.eq_false_iff.2 hvacuous, hv⟩

theorem NamesWhatIsSaid.binds_iff (h : k.NamesWhatIsSaid) (haccepted : k.conjunction.flaw? = none) :
    k.Binds ↔ k.conjunction.SaysEnough := by
  have hdenials := (Conjunction.flaw?_eq_none_iff.1 haccepted).2
  constructor
  · rintro ⟨hasserted, hdenied⟩
    refine ⟨h.asserted_iff.1 hasserted, fun denial hdenial => ?_⟩
    obtain ⟨plan, hplan, hnames⟩ := exists_of_forall₂ h.denials.flip hdenial
    obtain ⟨v, hnamed, hv, -⟩ := hdenied plan hplan
    exact ((hnames.mem_vars_iff hnamed).1 hv).1
  · rintro ⟨hasserted, hdenied⟩
    have hbound := h.asserted_iff.2 hasserted
    refine ⟨hbound, fun plan hplan => ?_⟩
    obtain ⟨denial, hdenial, hnames⟩ := exists_of_forall₂ h.denials hplan
    obtain ⟨hmem, hnegative⟩ := List.mem_filter.1 hdenial
    obtain ⟨v, hv, hshared⟩ := hdenials denial hmem hnegative
    obtain ⟨hv, hnamed⟩ := Statement.mem_namedVars.1 hv
    exact ⟨v, hnamed, (hnames.mem_vars_iff hnamed).2 ⟨hdenied denial hdenial, hv⟩,
      hbound v hshared⟩

end CompiledConjunction

namespace Compiler

theorem compileConjunction_names (conjunction : Conjunction) (c : Compiler) :
    ((compileConjunction conjunction).run c).1.conjunction = conjunction ∧
      ((compileConjunction conjunction).run c).1.NamesWhatIsSaid := by
  have hdenials := forall₂_run_mapM
    (R := fun denial (plan : TraversalPlan) => plan.NamesWhatIsSaid [denial.negated])
    (fun denial (_ : denial ∈ conjunction.negative) => planOf_names [denial.negated])
    ((planOf conjunction.positive).run c).2
  exact ⟨rfl, planOf_names conjunction.positive c, hdenials⟩

/-- What a pattern is compiled to is accepted, and its plans mention just the named variables of
what is said. -/
theorem compileMatch_names {p : Pattern} {c c' : Compiler} {ks : List CompiledConjunction}
    (h : (compileMatch p).run c = (.ok ks, c')) :
    ∀ k ∈ ks, k.conjunction.flaw? = none ∧ k.NamesWhatIsSaid := by
  rw [run_compileMatch] at h
  cases hvalid : p.validate c.settings.maxDisjuncts with
  | error e =>
    rw [hvalid] at h
    cases congrArg Prod.fst h
  | ok executable =>
    have hall := forall₂_run_mapM (R := fun conjunction (k : CompiledConjunction) =>
        k.conjunction = conjunction ∧ k.NamesWhatIsSaid)
      (fun conjunction (_ : conjunction ∈ executable.form.toList) =>
        compileConjunction_names conjunction)
      { c with supply := c.supply.reserve p.vars }
    rw [hvalid] at h
    have hks := Except.ok.inj (congrArg Prod.fst h)
    intro k hk
    rw [← hks] at hk
    obtain ⟨conjunction, hconjunction, rfl, hnames⟩ := exists_of_forall₂ hall hk
    exact ⟨(NormalForm.flaw?_eq_none_iff.1 executable.flawless).2 _ hconjunction, hnames⟩

/-- Of an accepted pattern the plan for what is asserted mentions all named variables that it should
bind, and each plan for a denial one of these, exactly if statements that say nothing make no
difference. -/
theorem compileMatch_binds_iff {p : Pattern} {c c' : Compiler} {ks : List CompiledConjunction}
    (h : (compileMatch p).run c = (.ok ks, c')) :
    ∀ k ∈ ks, k.NamesWhatIsSaid ∧ (k.Binds ↔ k.conjunction.SaysEnough) := by
  intro k hk
  obtain ⟨haccepted, hnames⟩ := compileMatch_names h k hk
  exact ⟨hnames, hnames.binds_iff haccepted⟩

/-- Named things that are no persons, where their being mentioned makes no difference. -/
theorem compileMatch_binds_iff_things :
    let x : Variable := .named "x"
    let p : Pattern := .conjunction [.statement (.about x),
      .statement ⟨x, .positive, [.has ⟨"name"⟩ (.about (.named "n"))]⟩,
      .negation (.statement ⟨x, .positive, [.isa (.labelled (.generated 0) ⟨"person"⟩) false]⟩)]
    ∃ ks c', (compileMatch p).run (.start .standard) = (.ok ks, c') ∧ ks.length = 1 ∧
      ∀ k ∈ ks, k.NamesWhatIsSaid ∧ (k.Binds ↔ k.conjunction.SaysEnough) := by
  intro x p
  have hrun : ((compileMatch p).run (.start .standard)).1.toOption.any (·.length = 1) = true := by
    cbv
  obtain ⟨ks, c', hcompile, hlength⟩ := exists_run_of_any hrun
  exact ⟨ks, c', hcompile, of_decide_eq_true hlength, compileMatch_binds_iff hcompile⟩

/-- Of all that are no persons nothing is said: the pattern is accepted, but nothing is bound for the
denial. -/
theorem not_compileMatch_binds_everything :
    let x : Variable := .named "x"
    let p : Pattern := .conjunction [.statement (.about x),
      .negation (.statement ⟨x, .positive, [.isa (.labelled (.generated 0) ⟨"person"⟩) false]⟩)]
    ∃ ks c', (compileMatch p).run (.start .standard) = (.ok ks, c') ∧
      ∃ k ∈ ks, x ∈ k.conjunction.boundVars ∧ k.plan.vars.toList = [] ∧ ¬ k.Binds := by
  intro x p
  have hrun : ((compileMatch p).run (.start .standard)).1.toOption.any
      (·.any fun k => x ∈ k.conjunction.boundVars && k.plan.vars.toList = []) = true := by
    cbv
  obtain ⟨ks, c', hcompile, hks⟩ := exists_run_of_any hrun
  obtain ⟨k, hk, hmem⟩ := List.any_eq_true.1 hks
  rw [Bool.and_eq_true, decide_eq_true_iff, decide_eq_true_iff] at hmem
  obtain ⟨hbound, hnone⟩ := hmem
  refine ⟨ks, c', hcompile, k, hk, hbound, hnone, fun hbinds => ?_⟩
  have hvar : x ∈ k.plan.vars.toList := hbinds.asserted x hbound
  rw [hnone] at hvar
  cases hvar

end Compiler

end GraphQuery
