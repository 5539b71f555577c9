import GraphQuery.Compilation.Match
import GraphQuery.Proofs.Collection.Lists
import GraphQuery.Proofs.Pattern.Parts
import GraphQuery.Proofs.Traversal.Slots
import GraphQuery.Proofs.Traversal.Supply
import Mathlib

/-!
# Fresh variables

A compiler first passes over the variables of a pattern and then hands out one variable after the
other, for all plans that the pattern needs. So no two things that the pattern leaves unnamed get one
variable, and none gets a variable that stands somewhere in the pattern, unless numbers run out
(`Compiler.compileMatch_freshlyPlanned`).
-/

namespace GraphQuery

/-- The variables that stand in a pattern at any depth, each as often as it stands there. -/
def Pattern.slots (p : Pattern) : List Variable := p.statements.flatMap (·.slots)

theorem Pattern.mem_slots {p : Pattern} {v : Variable} : v ∈ p.slots ↔ v ∈ p.vars := by
  simp only [slots, vars, List.flatMap_assoc, List.mem_flatMap, Statement.mem_slots,
    Statement.allVars]

/-- What the plans of a conjunction are for: all that it asserts, and each thing that it denies as if
it were asserted. -/
def Conjunction.parts (c : Conjunction) : List (List Statement) :=
  c.positive :: c.negative.map fun denial => [denial.negated]

/-- How many things the plans of a conjunction leave unnamed. -/
def Conjunction.additions (c : Conjunction) : Nat :=
  (c.parts.map fun ss => (ss.map Statement.additions).sum).sum

theorem Conjunction.additions_eq (c : Conjunction) :
    c.additions = (c.positive.map Statement.additions).sum +
      (c.negative.map fun denial => ([denial.negated].map Statement.additions).sum).sum := by
  rw [additions, parts, List.map_cons, List.sum_cons, List.map_map]
  rfl

/-- How many things the plans for a pattern leave unnamed. -/
def Pattern.additions (p : Pattern) : Nat := (p.normalForm.toList.map Conjunction.additions).sum

def CompiledConjunction.plans (k : CompiledConjunction) : List TraversalPlan := k.plan :: k.denials

namespace Compiler

theorem mem_vars_of_mem_normalForm {p : Pattern} {conjunction : Conjunction}
    (hconjunction : conjunction ∈ p.normalForm.toList) {s : Statement}
    (hs : s ∈ conjunction.toList) : s.allVars ⊆ p.vars := by
  obtain ⟨whole, hwhole, hpart⟩ := Pattern.exists_isPart_of_mem_normalForm hconjunction hs
  intro v hv
  rw [Pattern.vars, List.flatMap_assoc]
  exact List.mem_flatMap.2 ⟨whole, hwhole, hpart.allVars_subset hv⟩

theorem form_eq_of_validate {p : Pattern} {limit : Nat} {executable : ExecutableForm}
    (h : p.validate limit = .ok executable) : executable.form = p.normalForm := by
  rw [Pattern.validate, Pattern.normalize] at h
  split at h
  · cases h
  · have h : p.normalForm.validate = .ok executable := h
    rw [NormalForm.validate] at h
    split at h
    · cases h
    · cases h
      rfl

theorem run_compileMatch (p : Pattern) (c : Compiler) :
    (compileMatch p).run c =
      let reserved := { c with supply := c.supply.reserve p.vars }
      match p.validate c.settings.maxDisjuncts with
      | .error e => (.error e, reserved)
      | .ok executable =>
        let compiled := (executable.form.toList.mapM compileConjunction).run reserved
        (.ok compiled.1, compiled.2) := by
  have hrun : (compileMatch p).run c =
      (match p.validate c.settings.maxDisjuncts with
        | .error e => return .error e
        | .ok executable => return .ok (← executable.form.toList.mapM compileConjunction) :
          Compile (Except PatternError (List CompiledConjunction))).run
        { c with supply := c.supply.reserve p.vars } := rfl
  rw [hrun]
  cases p.validate c.settings.maxDisjuncts <;> rfl

theorem exists_run_of_any {p : Pattern} {c : Compiler} {f : List CompiledConjunction → Bool}
    (h : ((compileMatch p).run c).1.toOption.any f = true) :
    ∃ ks c', (compileMatch p).run c = (.ok ks, c') ∧ f ks = true := by
  cases hks : ((compileMatch p).run c).1 with
  | error e =>
    rw [hks] at h
    cases h
  | ok ks =>
    rw [hks] at h
    exact ⟨ks, _, Prod.ext hks rfl, h⟩

/-- The number after those that compiling a pattern hands out, which is greater than any if there are
too few of them. Nothing is handed out for a pattern that is refused. -/
def reach (c : Compiler) (p : Pattern) : Nat :=
  c.supply.above p.vars +
    match p.validate c.settings.maxDisjuncts with
    | .error _ => 0
    | .ok _ => p.additions

theorem above_le_reach (c : Compiler) (p : Pattern) : c.supply.above p.vars ≤ c.reach p :=
  Nat.le_add_right ..

/-- An accepted pattern is compiled one conjunction after the other. -/
theorem eq_of_run_compileMatch {p : Pattern} {c c' : Compiler} {ks : List CompiledConjunction}
    (h : (compileMatch p).run c = (.ok ks, c')) :
    c.reach p = c.supply.above p.vars + p.additions ∧
      ks = ((p.normalForm.toList.mapM compileConjunction).run
        { c with supply := c.supply.reserve p.vars }).1 := by
  rw [run_compileMatch] at h
  rw [reach]
  cases hvalid : p.validate c.settings.maxDisjuncts with
  | error e =>
    rw [hvalid] at h
    cases congrArg Prod.fst h
  | ok executable =>
    rw [hvalid] at h
    rw [← form_eq_of_validate hvalid]
    exact ⟨rfl, (Except.ok.inj (congrArg Prod.fst h)).symm⟩

/-- Unless numbers run out, what is handed out for an accepted pattern is fresh to it. -/
theorem freshTo_of_run_compileMatch {p : Pattern} {c c' : Compiler} {ks : List CompiledConjunction}
    (h : (compileMatch p).run c = (.ok ks, c')) (hreach : c.reach p ≤ 2 ^ 64) :
    (c.supply.reserve p.vars).FreshTo p.vars p.additions :=
  Supply.freshTo_reserve ((eq_of_run_compileMatch h).1 ▸ hreach)

theorem supply_run_mapM {α β : Type} {f : α → Compile β} {count : α → Nat} {l : List α}
    (h : ∀ x ∈ l, ∀ c : Compiler, ((f x).run c).2.supply = c.supply.after (count x))
    (c : Compiler) : ((l.mapM f).run c).2.supply = c.supply.after (l.map count).sum := by
  induction l generalizing c with
  | nil => exact c.supply.after_zero.symm
  | cons x l ih =>
    rw [List.forall_mem_cons] at h
    rw [List.mapM_cons, List.map_cons, List.sum_cons, ← Supply.after_after, ← h.1 c]
    exact ih h.2 _

theorem supply_planOf (ss : List Statement) (c : Compiler) :
    ((planOf ss).run c).2.supply = c.supply.after (ss.map Statement.additions).sum := by
  have h : ∀ s ∈ ss, s.allVars ⊆ Statement.varsOf ss :=
    fun s hs v hv => List.mem_flatMap.2 ⟨s, hs, hv⟩
  exact (Statement.draws_fragmentsOf h c.supply).next

theorem supply_denials (denied : List Statement) (c : Compiler) :
    ((denied.mapM fun denial => planOf [denial.negated]).run c).2.supply =
      c.supply.after (denied.map fun denial => ([denial.negated].map Statement.additions).sum).sum := by
  have hdenial : ∀ denial ∈ denied, ∀ c : Compiler, ((planOf [denial.negated]).run c).2.supply =
      c.supply.after ([denial.negated].map Statement.additions).sum :=
    fun denial _ => supply_planOf [denial.negated]
  exact supply_run_mapM hdenial c

theorem supply_compileConjunction (conjunction : Conjunction) (c : Compiler) :
    ((compileConjunction conjunction).run c).2.supply = c.supply.after conjunction.additions := by
  have hrun : ((compileConjunction conjunction).run c).2.supply =
      ((conjunction.negative.mapM fun denial => planOf [denial.negated]).run
        ((planOf conjunction.positive).run c).2).2.supply := rfl
  rw [hrun, supply_denials, supply_planOf, Supply.after_after, Conjunction.additions_eq]

/-- What is left of the supply says how far compiling a pattern has reached. -/
theorem toNat_next_compileMatch {p : Pattern} {c c' : Compiler}
    {result : Except PatternError (List CompiledConjunction)}
    (h : (compileMatch p).run c = (result, c')) :
    c'.supply.next.toNat = c.reach p % 2 ^ 64 := by
  rw [run_compileMatch] at h
  rw [reach]
  cases hvalid : p.validate c.settings.maxDisjuncts with
  | error e =>
    rw [hvalid] at h
    cases h
    exact c.supply.toNat_next_reserve p.vars
  | ok executable =>
    rw [hvalid] at h
    cases h
    have hsupply := supply_run_mapM (l := executable.form.toList)
      (fun conjunction _ => supply_compileConjunction conjunction)
      { c with supply := c.supply.reserve p.vars }
    refine (congrArg (·.next.toNat) hsupply).trans ?_
    rw [form_eq_of_validate hvalid]
    change ((c.supply.reserve p.vars).after p.additions).next.toNat = _
    rw [Supply.toNat_next_after, Supply.toNat_next_reserve, Nat.mod_add_mod]

end Compiler

/-- Plans that were made, each for a list of statements, with so many variables of a supply: each of
these was added to one plan, and all other variables are of the given list. -/
structure PlansDraw (known : List Variable) (m : Supply) (count : Nat)
    (parts : List (List Statement)) (plans : List TraversalPlan) : Prop where
  added : (plans.flatMap (·.added)).Perm (m.drawn count)
  count : List.Forall₂ (fun ss plan => plan.added.length = (ss.map Statement.additions).sum)
    parts plans
  vars : ∀ plan ∈ plans, ∀ v ∈ plan.vars, v ∈ plan.added ∨ v ∈ known

namespace PlansDraw

variable {known : List Variable} {m n : Supply} {i j : Nat} {ps qs : List (List Statement)}
  {plans others : List TraversalPlan}

theorem nil (known : List Variable) (m : Supply) : PlansDraw known m 0 [] [] :=
  ⟨.refl _, .nil, nofun⟩

theorem append (h : PlansDraw known m i ps plans)
    (hrest : PlansDraw known (m.after i) j qs others) :
    PlansDraw known m (i + j) (ps ++ qs) (plans ++ others) := by
  refine ⟨?_, List.rel_append h.count hrest.count, fun plan hplan => ?_⟩
  · rw [List.flatMap_append, ← Supply.drawn_append]
    exact h.added.append hrest.added
  · exact (List.mem_append.1 hplan).elim (h.vars plan) (hrest.vars plan)

/-- The plans for all members of a list, one after the other. -/
theorem mapM {α β : Type} {f : α → Compiler.Compile β} {count : α → Nat}
    {parts : α → List (List Statement)} {S : β → List TraversalPlan} {l : List α}
    (hsupply : ∀ x ∈ l, ∀ c : Compiler, ((f x).run c).2.supply = c.supply.after (count x))
    (h : ∀ x ∈ l, ∀ c : Compiler, c.supply.FreshTo known (count x) →
      PlansDraw known c.supply (count x) (parts x) (S ((f x).run c).1))
    {c : Compiler} (hfresh : c.supply.FreshTo known (l.map count).sum) :
    PlansDraw known c.supply (l.map count).sum (l.flatMap parts)
      (((l.mapM f).run c).1.flatMap S) := by
  induction l generalizing c with
  | nil => exact nil known c.supply
  | cons x l ih =>
    rw [List.forall_mem_cons] at hsupply h
    rw [List.map_cons, List.sum_cons] at hfresh ⊢
    have hrest := ih hsupply.2 h.2 (hsupply.1 c ▸ hfresh.right)
    rw [hsupply.1 c] at hrest
    simp only [List.mapM_cons, List.flatMap_cons]
    exact (h.1 c hfresh.left).append hrest

end PlansDraw

namespace Compiler

theorem planOf_draws {known : List Variable} {ss : List Statement}
    (h : ∀ s ∈ ss, s.allVars ⊆ known) {c : Compiler}
    (hfresh : c.supply.FreshTo known (ss.map Statement.additions).sum) :
    PlansDraw known c.supply (ss.map Statement.additions).sum [ss] [((planOf ss).run c).1] := by
  have hsets := Statement.draws_fragmentsOf h c.supply
  have hadded : ((planOf ss).run c).1.added.Perm
      (((Statement.fragmentsOf ss).run c.supply).1.filterMap (·.added?)) :=
    TraversalPlan.added_ofSets_perm (hsets.added ▸ hfresh.nodup)
  rw [hsets.added] at hadded
  refine ⟨?_, .cons ?_ .nil, fun plan hplan v hv => ?_⟩
  · rw [List.flatMap_singleton]
    exact hadded
  · rw [hadded.length_eq, Supply.length_drawn]
  · rw [List.mem_singleton.1 hplan] at hv ⊢
    obtain ⟨s, hs, hv⟩ := TraversalPlan.mem_vars.1 hv
    rw [hadded.mem_iff]
    exact hsets.vars s (TraversalPlan.mem_ofSets.1 hs) v hv

theorem compileConjunction_draws {known : List Variable} {conjunction : Conjunction}
    (h : ∀ s ∈ conjunction.toList, s.allVars ⊆ known) {c : Compiler}
    (hfresh : c.supply.FreshTo known conjunction.additions) :
    PlansDraw known c.supply conjunction.additions conjunction.parts
      ((compileConjunction conjunction).run c).1.plans := by
  rw [Conjunction.additions_eq] at hfresh ⊢
  have hpositive : ∀ s ∈ conjunction.positive, s.allVars ⊆ known :=
    fun s hs => h s (List.mem_filter.1 hs).1
  have hdenial : ∀ denial ∈ conjunction.negative, ∀ c : Compiler,
      c.supply.FreshTo known ([denial.negated].map Statement.additions).sum →
        PlansDraw known c.supply ([denial.negated].map Statement.additions).sum [[denial.negated]]
          [((planOf [denial.negated]).run c).1] := by
    refine fun denial hdenial c => planOf_draws fun s hs => ?_
    rw [List.mem_singleton.1 hs, Statement.allVars_negated]
    exact h denial (List.mem_filter.1 hdenial).1
  have hsupply := supply_planOf conjunction.positive c
  have hdenials := PlansDraw.mapM (S := ([·])) (fun denial _ => supply_planOf [denial.negated])
    hdenial (hsupply ▸ hfresh.right)
  rw [List.flatMap_singleton', ← List.map_eq_flatMap, hsupply] at hdenials
  exact (planOf_draws hpositive hfresh.left).append hdenials

end Compiler

/-- That the plans for a pattern have a variable for each thing that the pattern leaves unnamed, and
that it is fresh: no two things have one variable, none has a variable of the pattern or one that was
handed out before, and all other variables of the plans are variables of the pattern. -/
structure Pattern.FreshlyPlanned (p : Pattern) (m n : Supply) (plans : List TraversalPlan) :
    Prop where
  count : List.Forall₂ (fun ss plan => plan.added.length = (ss.map Statement.additions).sum)
    (p.normalForm.toList.flatMap (·.parts)) plans
  distinct : (plans.flatMap (·.added)).Nodup
  generated : ∀ v ∈ plans.flatMap (·.added),
    ∃ number, v = .generated number ∧ m.next ≤ number ∧ number < n.next
  fresh : ∀ v ∈ plans.flatMap (·.added), v ∉ p.slots
  others : ∀ plan ∈ plans, ∀ v ∈ plan.vars, v ∈ plan.added ∨ v ∈ p.slots

namespace Compiler

/-- Whatever has been compiled before, the plans for a pattern are made with fresh variables, and the
supply of a compiler never goes back, even where it refuses the pattern, unless numbers run out. -/
theorem compileMatch_freshlyPlanned {p : Pattern} {c c' : Compiler}
    {result : Except PatternError (List CompiledConjunction)}
    (h : (compileMatch p).run c = (result, c')) (hreach : c.reach p < 2 ^ 64) :
    c.supply.next ≤ c'.supply.next ∧
      ∀ ks, result = .ok ks → p.FreshlyPlanned c.supply c'.supply (ks.flatMap (·.plans)) := by
  have hle := c.supply.le_above p.vars
  have habove := above_le_reach c p
  have hnext := toNat_next_compileMatch h
  rw [Nat.mod_eq_of_lt hreach] at hnext
  refine ⟨UInt64.le_iff_toNat_le.2 (by omega), fun ks hks => ?_⟩
  subst hks
  obtain ⟨hadditions, rfl⟩ := eq_of_run_compileMatch h
  have hfresh := freshTo_of_run_compileMatch h hreach.le
  have hreserve : (c.supply.reserve p.vars).next.toNat = c.supply.above p.vars := by
    rw [Supply.toNat_next_reserve, Nat.mod_eq_of_lt (by omega)]
  have hall : PlansDraw p.vars (c.supply.reserve p.vars) p.additions _ _ :=
    PlansDraw.mapM (S := CompiledConjunction.plans)
      (c := { c with supply := c.supply.reserve p.vars })
      (fun conjunction _ => supply_compileConjunction conjunction)
      (fun conjunction hconjunction c => compileConjunction_draws
        fun s hs => mem_vars_of_mem_normalForm hconjunction hs) hfresh
  refine ⟨hall.count, hall.added.nodup_iff.2 hfresh.nodup, fun v hv => ?_, fun v hv hslot => ?_, ?_⟩
  · rw [hall.added.mem_iff, Supply.mem_drawn (by omega)] at hv
    obtain ⟨number, rfl, hlow, hhigh⟩ := hv
    exact ⟨number, rfl, UInt64.le_iff_toNat_le.2 (by omega), UInt64.lt_iff_toNat_lt.2 (by omega)⟩
  · rw [hall.added.mem_iff] at hv
    exact hfresh.not_mem v hv (Pattern.mem_slots.1 hslot)
  · simp only [Pattern.mem_slots]
    exact hall.vars

/-- Persons that own a named thing and have no friend, for a compiler whose next variable is the one
that stands deepest in the pattern. -/
theorem compileMatch_freshlyPlanned_owners :
    let x : Variable := .named "x"
    let name : Statement := ⟨.generated 4, .positive, [.isa (.labelled (.generated 7) ⟨"name"⟩) false]⟩
    let thing : Statement := ⟨.named "t", .positive, [.has ⟨"name"⟩ name]⟩
    let person : Statement :=
      ⟨x, .positive, [.isa (.labelled (.generated 0) ⟨"person"⟩) false, .has ⟨"thing"⟩ thing]⟩
    let friends : Statement :=
      ⟨.named "r", .positive, [.relation [⟨some ⟨"friend"⟩, x⟩, ⟨some ⟨"friend"⟩, .named "y"⟩]]⟩
    let p : Pattern := .conjunction [.statement person, .negation (.statement friends)]
    let c : Compiler := { start .standard with supply := ⟨7⟩ }
    ∃ ks c', (compileMatch p).run c = (.ok ks, c') ∧ c.reach p < 2 ^ 64 ∧
      (ks.flatMap (·.plans)).flatMap (·.added) =
        [.generated 8, .generated 9, .generated 10, .generated 11] ∧
      p.FreshlyPlanned ⟨7⟩ c'.supply (ks.flatMap (·.plans)) := by
  intro x name thing person friends p c
  have hrun : ((compileMatch p).run c).1.toOption.any
      (fun ks => (ks.flatMap (·.plans)).flatMap (·.added) =
        [.generated 8, .generated 9, .generated 10, .generated 11]) = true := by
    cbv
  have hreach : c.reach p < 2 ^ 64 := by
    have hnumber : c.reach p = 12 := by cbv
    omega
  obtain ⟨ks, c', hcompile, hadded⟩ := exists_run_of_any hrun
  exact ⟨ks, c', hcompile, hreach, of_decide_eq_true hadded,
    (compileMatch_freshlyPlanned hcompile hreach).2 ks rfl⟩

end Compiler

end GraphQuery
