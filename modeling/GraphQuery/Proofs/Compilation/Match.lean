import GraphQuery.Proofs.Compilation.Fresh
import GraphQuery.Proofs.Traversal.Lowering
import Mathlib

/-!
# Compiled conjunctions

Each conjunction of the normal form of a pattern is compiled with variables that are fresh to the
whole pattern, unless numbers run out. So its plan can be carried out from an assignment exactly if the
assignment makes the asserted statements true, and each plan for a denial exactly if it makes true
what is denied (`Compiler.compileMatch_denotes`).
-/

namespace GraphQuery

variable {U : Type*} {g : Graph U} {known vars : List Variable} {P Q : (Variable → U) → Prop}
  {plan : TraversalPlan}

/-- That a plan means an assertion: variables that are not known may be assigned what is needed. -/
structure TraversalPlan.Means (plan : TraversalPlan) (g : Graph U) (known : List Variable)
    (P : (Variable → U) → Prop) : Prop where
  uniform : ∀ s ∈ plan.sets, s.Uniform g
  sound : ∀ a, plan.Holds g a → P a
  complete : ∀ a, P a → ∃ b, (∀ v ∈ known, b v = a v) ∧ plan.Holds g b

theorem TraversalPlan.Means.congr (h : plan.Means g known P) (hPQ : ∀ a, P a ↔ Q a) :
    plan.Means g known Q :=
  ⟨h.uniform, fun a ha => (hPQ a).1 (h.sound a ha), fun a ha => h.complete a ((hPQ a).2 ha)⟩

theorem Renders.means {m : Supply} {count : Nat} {ordered : Bool} {sets : List FragmentSet}
    (h : Renders g known m count sets P) (hfresh : m.FreshTo known count) :
    (TraversalPlan.ofSets ordered sets).Means g known P := by
  have hholds : ∀ a, (TraversalPlan.ofSets ordered sets).Holds g a ↔ ∀ s ∈ sets, s.Holds g a := by
    intro a
    simp only [TraversalPlan.Holds, TraversalPlan.mem_ofSets]
  refine ⟨fun s hs => h.uniform s (TraversalPlan.mem_ofSets.1 hs),
    fun a ha => h.sound a ((hholds a).1 ha), fun a ha => ?_⟩
  obtain ⟨b, hb, hsets⟩ := h.complete hfresh a ha
  exact ⟨b, fun v hv => hb v fun hdrawn => hfresh.not_mem v hdrawn hv, (hholds b).2 hsets⟩

/-- That the plans of a compiled conjunction mean what it asserts and what it denies. -/
structure CompiledConjunction.Means (k : CompiledConjunction) (g : Graph U)
    (known : List Variable) : Prop where
  plan : k.plan.Means g known fun a => ∀ s ∈ k.conjunction.positive, s.Holds g a
  denials : List.Forall₂ (fun denial plan => plan.Means g known fun a => denial.negated.Holds g a)
    k.conjunction.negative k.denials

namespace Compiler

theorem planOf_means (g : Graph U) {ss : List Statement} (hss : ∀ s ∈ ss, s.allVars ⊆ known)
    {c : Compiler} (hfresh : c.supply.FreshTo known (ss.map Statement.additions).sum) :
    ((planOf ss).run c).1.Means g known (fun a => ∀ s ∈ ss, s.Holds g a) :=
  Renders.means (Statement.renders_fragmentsOf hss c.supply) hfresh

/-- What each step of a walk over a list yields, as long as what is left of the list has what it
needs. -/
theorem forall₂_run_mapM_of_invariant {σ α β : Type} {f : α → StateM σ β} {I : List α → σ → Prop}
    {R : α → β → Prop} {xs : List α} {s : σ}
    (hf : ∀ x ∈ xs, ∀ rest s, I (x :: rest) s → R x ((f x).run s).1 ∧ I rest ((f x).run s).2)
    (hs : I xs s) : List.Forall₂ R xs ((xs.mapM f).run s).1 := by
  induction xs generalizing s with
  | nil => exact .nil
  | cons x xs ih =>
    rw [List.forall_mem_cons] at hf
    obtain ⟨hx, hrest⟩ := hf.1 xs s hs
    rw [List.mapM_cons]
    exact .cons hx (ih hf.2 hrest)

/-- What each step of a walk over a list yields, whatever the state. -/
theorem forall₂_run_mapM {σ α β : Type} {f : α → StateM σ β} {R : α → β → Prop} {xs : List α}
    (hf : ∀ x ∈ xs, ∀ s, R x ((f x).run s).1) (s : σ) :
    List.Forall₂ R xs ((xs.mapM f).run s).1 :=
  forall₂_run_mapM_of_invariant (I := fun _ _ => True) (fun x hx _ s _ => ⟨hf x hx s, trivial⟩)
    trivial

/-- A walk for which the supply has fresh variables has them for each of its steps. -/
theorem forall₂_run_mapM_of_freshTo {α β : Type} {f : α → Compile β} {count : α → Nat}
    {R : α → β → Prop} {xs : List α} {c : Compiler}
    (hsupply : ∀ x ∈ xs, ∀ c : Compiler, ((f x).run c).2.supply = c.supply.after (count x))
    (hf : ∀ x ∈ xs, ∀ c : Compiler, c.supply.FreshTo known (count x) → R x ((f x).run c).1)
    (hfresh : c.supply.FreshTo known (xs.map count).sum) :
    List.Forall₂ R xs ((xs.mapM f).run c).1 := by
  refine forall₂_run_mapM_of_invariant
    (I := fun rest c => c.supply.FreshTo known (rest.map count).sum)
    (fun x hx rest c hfresh => ?_) hfresh
  rw [List.map_cons, List.sum_cons] at hfresh
  refine ⟨hf x hx c hfresh.left, ?_⟩
  rw [hsupply x hx c]
  exact hfresh.right

theorem compileConjunction_means (g : Graph U) {conjunction : Conjunction}
    (hconjunction : ∀ s ∈ conjunction.toList, s.allVars ⊆ known) {c : Compiler}
    (hfresh : c.supply.FreshTo known conjunction.additions) :
    ((compileConjunction conjunction).run c).1.Means g known := by
  rw [Conjunction.additions_eq] at hfresh
  have hpositive : ∀ s ∈ conjunction.positive, s.allVars ⊆ known :=
    fun s hs => hconjunction s (List.mem_filter.1 hs).1
  have hdenial : ∀ denial ∈ conjunction.negative, ∀ c : Compiler,
      c.supply.FreshTo known ([denial.negated].map Statement.additions).sum →
        ((planOf [denial.negated]).run c).1.Means g known fun a => denial.negated.Holds g a := by
    refine fun denial hdenial c hfresh => (planOf_means g (fun s hs => ?_) hfresh).congr (by simp)
    rw [List.mem_singleton.1 hs, Statement.allVars_negated]
    exact hconjunction denial (List.mem_filter.1 hdenial).1
  have hrest : ((planOf conjunction.positive).run c).2.supply.FreshTo known
      (conjunction.negative.map fun denial => ([denial.negated].map Statement.additions).sum).sum := by
    rw [supply_planOf]
    exact hfresh.right
  exact ⟨planOf_means g hpositive hfresh.left,
    forall₂_run_mapM_of_freshTo (fun denial _ => supply_planOf [denial.negated]) hdenial hrest⟩

/-- The compiled conjunctions are those of the normal form in their order, and their plans mean what
they say. -/
theorem compileMatch_means (g : Graph U) {p : Pattern} {c c' : Compiler}
    {ks : List CompiledConjunction} (h : (compileMatch p).run c = (.ok ks, c'))
    (hreach : c.reach p ≤ 2 ^ 64) :
    List.Forall₂ (fun conjunction k => k.conjunction = conjunction ∧ k.Means g p.vars)
      p.normalForm.toList ks := by
  have hfresh := freshTo_of_run_compileMatch h hreach
  rw [(eq_of_run_compileMatch h).2]
  refine forall₂_run_mapM_of_freshTo (fun conjunction _ => supply_compileConjunction conjunction)
    (fun conjunction hconjunction c hfresh => ⟨rfl, ?_⟩) hfresh
  exact compileConjunction_means g (fun s hs => mem_vars_of_mem_normalForm hconjunction hs) hfresh

end Compiler

end GraphQuery
