import GraphQuery.Proofs.Compilation.Match
import GraphQuery.Proofs.Pattern.Expansion
import GraphQuery.Proofs.Traversal.Slots

/-!
# Denied conjunctions

A pattern that asserts some statements and denies that others hold together is compiled into one
conjunction for each denied unit, up to units of one shape. Each of them is denied by itself: what
several of them say of a variable that is not asserted need not be said of one concept. So an
accepted assignment never has an extension for which all that is denied holds, but an assignment
without one is accepted for certain only if no two units share such a variable
(`Compiler.compileMatch_except`). All this is unless numbers of variables run out.
-/

namespace GraphQuery

variable {U : Type*}

/-- The pattern that asserts statements and denies that others hold together. -/
def Pattern.except (asserted denied : List Statement) : Pattern :=
  .conjunction (asserted.map .statement ++ [.negation (.conjunction (denied.map .statement))])

/-- The units of statements that are denied. -/
def Statement.denials (denied : List Statement) : List Statement :=
  denied.flatMap fun s => s.negated.units

/-- That no statement of a list is a denial. -/
def Statement.AllPositive (ss : List Statement) : Prop := ∀ s ∈ ss, s.polarity = .positive

/-- A conjunction that asserts statements and denies one unit. -/
def Conjunction.except (asserted : List Statement) (denial : Statement) : Conjunction :=
  .ofList (asserted ++ [denial])

theorem Statement.isNegative_of_mem_denials {denied : List Statement} {u : Statement}
    (hdenied : AllPositive denied) (hu : u ∈ denials denied) : u.isNegative = true := by
  obtain ⟨s, hs, hu⟩ := List.mem_flatMap.1 hu
  simp [isNegative, polarity_eq_of_mem_units hu, negated, hdenied s hs, Polarity.flip]

theorem Statement.expand_of_positive {s : Statement} (hs : s.polarity = .positive) :
    s.expand false = [[s]] ∧ s.expand true = s.negated.units.map ([·]) := by
  obtain ⟨var, polarity, properties⟩ := s
  cases hs
  exact ⟨rfl, rfl⟩

namespace Pattern

theorem alternatives_statements {denied : List Statement} (h : Statement.AllPositive denied) :
    alternatives (denied.map .statement) true = (Statement.denials denied).map ([·]) := by
  induction denied with
  | nil => rfl
  | cons s ss ih =>
    obtain ⟨hs, hss⟩ := List.forall_mem_cons.1 h
    rw [List.map_cons, alternatives, expand, (Statement.expand_of_positive hs).2, ih hss,
      ← List.map_append, Statement.denials, Statement.denials, List.flatMap_cons]

theorem expand_except {asserted denied : List Statement} (hasserted : Statement.AllPositive asserted)
    (hdenied : Statement.AllPositive denied) :
    (except asserted denied).expand false =
      (Statement.denials denied).map fun u => asserted ++ [u] := by
  have hnegation : (negation (.conjunction (denied.map .statement))).expand false =
      (Statement.denials denied).map ([·]) := by
    rw [expand, expand]
    exact alternatives_statements hdenied
  have hpositive : ∀ s ∈ asserted, s.expand false = [[s]] := fun s hs =>
    (Statement.expand_of_positive (hasserted s hs)).1
  rw [except, expand, if_neg Bool.false_ne_true, combinations_append,
    combinations_statements hpositive, combinations, combinations, hnegation, List.nil_append]
  simp [append, Function.comp_def]

theorem exists_of_mem_normalForm_except {asserted denied : List Statement}
    (hasserted : Statement.AllPositive asserted) (hdenied : Statement.AllPositive denied)
    {c : Conjunction} (hc : c ∈ (except asserted denied).normalForm.toList) :
    ∃ u ∈ Statement.denials denied, c = .except asserted u := by
  have hc := Distinct.mem_of_mem_eraseDups hc
  rw [expand_except hasserted hdenied, List.map_map] at hc
  obtain ⟨u, hu, rfl⟩ := List.mem_map.1 hc
  exact ⟨u, hu, rfl⟩

end Pattern

namespace Conjunction

variable {asserted : List Statement} {u : Statement}

theorem mem_of_mem_positive (hu : u.isNegative = true) {s : Statement}
    (hs : s ∈ (except asserted u).positive) : s ∈ asserted := by
  obtain ⟨hs, hpositive⟩ := List.mem_filter.1 hs
  rcases List.mem_append.1 (Distinct.mem_of_mem_eraseDups hs) with hs | hs
  · exact hs
  · rw [List.mem_singleton.1 hs, hu] at hpositive
    cases hpositive

theorem eq_of_mem_except (hasserted : Statement.AllPositive asserted) {s : Statement}
    (hs : s ∈ (except asserted u).toList) (hnegative : s.isNegative = true) : s = u := by
  rcases List.mem_append.1 (Distinct.mem_of_mem_eraseDups hs) with hs | hs
  · simp [Statement.isNegative, hasserted s hs] at hnegative
  · exact List.mem_singleton.1 hs

theorem mem_negative_except (hasserted : Statement.AllPositive asserted) (hu : u.isNegative = true)
    {s : Statement} : s ∈ (except asserted u).negative ↔ s = u := by
  constructor
  · intro hs
    obtain ⟨hs, hnegative⟩ := List.mem_filter.1 hs
    exact eq_of_mem_except hasserted hs hnegative
  · rintro rfl
    obtain ⟨t, ht, hst⟩ := Distinct.exists_eraseDups_beq
      (List.mem_append_right asserted (List.mem_singleton.2 (Eq.refl s)))
    have hmem : t ∈ (except asserted s).toList := ht
    have heq : t = s := eq_of_mem_except hasserted hmem
      (Statement.isNegative_eq_of_beq hst ▸ hu)
    exact List.mem_filter.2 ⟨heq ▸ hmem, hu⟩

/-- Conjunctions of one shape deny units of one shape. -/
theorem beq_of_except_beq (hasserted : Statement.AllPositive asserted) (hu : u.isNegative = true)
    {w : Statement} (h : (except asserted u == except asserted w) = true) : (u == w) = true := by
  have hmem := (List.mem_filter.1 ((mem_negative_except hasserted hu).2 rfl)).1
  obtain ⟨t, ht, hut⟩ := (Distinct.beq_iff.1 h).2 u hmem
  exact eq_of_mem_except hasserted ht (Statement.isNegative_eq_of_beq hut ▸ hu) ▸ hut

end Conjunction

/-- Each denied unit has one of its shape that is denied in a conjunction of the normal form. -/
theorem Pattern.exists_mem_normalForm_except {asserted denied : List Statement}
    (hasserted : Statement.AllPositive asserted) (hdenied : Statement.AllPositive denied)
    {u : Statement} (hu : u ∈ Statement.denials denied) :
    ∃ w ∈ Statement.denials denied, (u == w) = true ∧
      Conjunction.except asserted w ∈ (except asserted denied).normalForm.toList := by
  have hmem : Conjunction.except asserted u ∈ ((except asserted denied).expand false).map .ofList := by
    rw [expand_except hasserted hdenied, List.map_map]
    exact List.mem_map.2 ⟨u, hu, rfl⟩
  obtain ⟨c, hc, hbeq⟩ := Distinct.exists_eraseDups_beq hmem
  obtain ⟨w, hw, rfl⟩ := exists_of_mem_normalForm_except hasserted hdenied hc
  have hnegative := Statement.isNegative_of_mem_denials hdenied hu
  exact ⟨w, hw, Conjunction.beq_of_except_beq hasserted hnegative hbeq, hc⟩

/-- That one assignment assigns some variables what another does. -/
def Keeps (vars : List Variable) (a b : Variable → U) : Prop := ∀ v ∈ vars, b v = a v

/-- That a compiled conjunction accepts an assignment to some variables: its plan can be carried out
from there, and none of the plans for its denials can. -/
def CompiledConjunction.Accepts (k : CompiledConjunction) (g : Graph U) (vars : List Variable)
    (a : Variable → U) : Prop :=
  (∃ b, Keeps vars a b ∧ k.plan.Holds g b) ∧
    ∀ denial ∈ k.denials, ¬∃ b, Keeps vars a b ∧ denial.Holds g b

/-- That an assignment has an extension for which a statement holds. -/
def Statement.HoldsBeyond (g : Graph U) (vars : List Variable) (a : Variable → U)
    (s : Statement) : Prop :=
  ∃ b, Keeps vars a b ∧ s.Holds g b

/-- A conjunction with one denied unit accepts what makes the asserted statements true and has no
extension for which the unit holds. -/
theorem CompiledConjunction.Means.accepts_iff {g : Graph U} {known : List Variable}
    {asserted : List Statement} {u : Statement} {k : CompiledConjunction} (h : k.Means g known)
    (hk : k.conjunction = .except asserted u) (hasserted : Statement.AllPositive asserted)
    (hu : u.isNegative = true) (hknown : Statement.varsOf asserted ⊆ known) {a : Variable → U}
    (ha : ∀ s ∈ asserted, s.Holds g a) :
    k.Accepts g (Statement.varsOf asserted) a ↔ ¬u.HoldsBeyond g (Statement.varsOf asserted) a := by
  have hnegative {s : Statement} : s ∈ k.conjunction.negative ↔ s = u := by
    rw [hk]
    exact Conjunction.mem_negative_except hasserted hu
  constructor
  · rintro ⟨-, hdenials⟩ ⟨b, hb, hholds⟩
    obtain ⟨plan, hplan, hmeans⟩ := exists_of_forall₂ h.denials.flip (hnegative.2 rfl)
    obtain ⟨c, hc, hsteps⟩ := hmeans.complete b (Statement.holds_negated.2 hholds)
    exact hdenials plan hplan ⟨c, fun v hv => (hc v (hknown hv)).trans (hb v hv), hsteps⟩
  · intro hnone
    refine ⟨?_, ?_⟩
    · have hpositive : ∀ s ∈ k.conjunction.positive, s.Holds g a := by
        rw [hk]
        exact fun s hs => ha s (Conjunction.mem_of_mem_positive hu hs)
      obtain ⟨b, hb, hsteps⟩ := h.plan.complete a hpositive
      exact ⟨b, fun v hv => hb v (hknown hv), hsteps⟩
    · rintro plan hplan ⟨b, hb, hsteps⟩
      obtain ⟨s, hs, hmeans⟩ := exists_of_forall₂ h.denials hplan
      refine hnone ⟨b, hb, ?_⟩
      rw [← hnegative.1 hs]
      exact Statement.holds_negated.1 (hmeans.sound b hsteps)

section Compiled

variable {g : Graph U} {asserted denied : List Statement} {c c' : Compiler}
  {ks : List CompiledConjunction} {a : Variable → U}

theorem varsOf_subset_except : Statement.varsOf asserted ⊆ (Pattern.except asserted denied).vars := by
  intro v hv
  obtain ⟨s, hs, hv⟩ := List.mem_flatMap.1 hv
  rw [Pattern.vars, List.flatMap_assoc]
  refine List.mem_flatMap.2 ⟨s, ?_, hv⟩
  rw [Pattern.except, Pattern.statements, Pattern.statementsOf_eq_flatMap, List.flatMap_append]
  refine List.mem_append_left _ (List.mem_flatMap.2 ⟨.statement s, ?_, List.mem_cons_self⟩)
  exact List.mem_map.2 ⟨s, hs, rfl⟩

/-- Some conjunction accepts an assignment only if some denied unit holds for no extension. -/
theorem exists_not_holdsBeyond_of_accepts
    (h : (Compiler.compileMatch (.except asserted denied)).run c = (.ok ks, c'))
    (hreach : c.reach (.except asserted denied) ≤ 2 ^ 64)
    (hasserted : Statement.AllPositive asserted) (hdenied : Statement.AllPositive denied)
    (ha : ∀ s ∈ asserted, s.Holds g a)
    (hk : ∃ k ∈ ks, k.Accepts g (Statement.varsOf asserted) a) :
    ∃ u ∈ Statement.denials denied, ¬u.HoldsBeyond g (Statement.varsOf asserted) a := by
  obtain ⟨k, hk, haccepts⟩ := hk
  obtain ⟨conjunction, hconjunction, hsame, hmeans⟩ :=
    exists_of_forall₂ (Compiler.compileMatch_means g h hreach) hk
  obtain ⟨u, hu, rfl⟩ := Pattern.exists_of_mem_normalForm_except hasserted hdenied hconjunction
  have hnegative := Statement.isNegative_of_mem_denials hdenied hu
  exact ⟨u, hu, (hmeans.accepts_iff hsame hasserted hnegative varsOf_subset_except ha).1 haccepts⟩

/-- If no conjunction accepts an assignment, each denied unit has one of its shape that holds for
some extension. -/
theorem exists_holdsBeyond_of_not_accepts
    (h : (Compiler.compileMatch (.except asserted denied)).run c = (.ok ks, c'))
    (hreach : c.reach (.except asserted denied) ≤ 2 ^ 64)
    (hasserted : Statement.AllPositive asserted) (hdenied : Statement.AllPositive denied)
    (ha : ∀ s ∈ asserted, s.Holds g a)
    (hks : ¬∃ k ∈ ks, k.Accepts g (Statement.varsOf asserted) a) {u : Statement}
    (hu : u ∈ Statement.denials denied) :
    ∃ w ∈ Statement.denials denied, (u == w) = true ∧
      w.HoldsBeyond g (Statement.varsOf asserted) a := by
  obtain ⟨w, hw, huw, hconjunction⟩ := Pattern.exists_mem_normalForm_except hasserted hdenied hu
  obtain ⟨k, hk, hsame, hmeans⟩ :=
    exists_of_forall₂ (Compiler.compileMatch_means g h hreach).flip hconjunction
  refine ⟨w, hw, huw, ?_⟩
  by_contra hnone
  have hnegative := Statement.isNegative_of_mem_denials hdenied hw
  exact hks ⟨k, hk, (hmeans.accepts_iff hsame hasserted hnegative varsOf_subset_except ha).2 hnone⟩

end Compiled

theorem Statement.holds_of_mem_denials {g : Graph U} {b : Variable → U} {denied : List Statement}
    (h : ∀ s ∈ denied, s.Holds g b) {u : Statement} (hu : u ∈ denials denied) : u.Holds g b := by
  obtain ⟨s, hs, hu⟩ := List.mem_flatMap.1 hu
  exact (isPart_of_mem_units hu).holds (holds_negated.2 (h s hs))

/-- A statement holds if all its units do, unless it is a relation with several types. -/
theorem Statement.holds_of_units {g : Graph U} {b : Variable → U} {s : Statement}
    (htyped : s.TypedOnce) (h : ∀ u ∈ s.units, u.Holds g b) : s.Holds g b := by
  rw [holds_iff]
  intro p hp
  rw [← (flatMap_units htyped).mem_iff] at hp
  obtain ⟨u, hu, hp⟩ := List.mem_flatMap.1 hp
  rw [← var_eq_of_mem_units hu]
  exact holds_iff.1 (h u hu) p hp

/-- That the units of denied statements say all that these say, and share no variable that is not
asserted, unless by its name when they are of one shape. A unit that has the shape of another has
its slots to itself. -/
structure Statement.Separate (asserted denied : List Statement) : Prop where
  typedOnce : ∀ s ∈ denied, s.TypedOnce
  shared : ∀ u ∈ denials denied, ∀ w ∈ denials denied, ∀ v ∈ u.allVars, v ∈ w.allVars →
    v ∈ varsOf asserted ∨ u = w ∨ (u == w) = true ∧ v.isNamed = true
  slots : ∀ u ∈ denials denied, ∀ w ∈ denials denied, (u == w) = true →
    u = w ∨ (unnamed w.slots).Nodup ∧ ∀ v ∈ unnamed w.slots, v ∉ varsOf asserted

/-- Assignments for several statements that agree where the statements share a variable can be put
together. -/
theorem exists_common {us : List Statement} {vars : List Variable} {a : Variable → U}
    {f : Statement → Variable → U} (hf : ∀ u ∈ us, Keeps vars a (f u))
    (hshared : ∀ u ∈ us, ∀ w ∈ us, ∀ v ∈ u.allVars, v ∈ w.allVars → f u v = f w v) :
    ∃ b, Keeps vars a b ∧ ∀ u ∈ us, ∀ v ∈ u.allVars, b v = f u v := by
  classical
  refine ⟨fun v => if h : ∃ u ∈ us, v ∈ u.allVars then f h.choose v else a v, ?_, ?_⟩
  · intro v hv
    dsimp only
    split
    case isTrue h => exact hf _ h.choose_spec.1 v hv
    case isFalse => rfl
  · intro u hu v hv
    have h : ∃ w ∈ us, v ∈ w.allVars := ⟨u, hu, hv⟩
    dsimp only
    rw [dif_pos h]
    exact hshared _ h.choose_spec.1 u hu v h.choose_spec.2 hv

/-- Statements of one shape can be given one assignment, for which one of that shape holds. -/
theorem exists_base {g : Graph U} {us : List Statement} {vars : List Variable} {a : Variable → U}
    (h : ∀ u ∈ us, ∃ w ∈ us, (u == w) = true ∧ w.HoldsBeyond g vars a) :
    ∃ f : Statement → Variable → U,
      (∀ u ∈ us, Keeps vars a (f u) ∧ ∃ w ∈ us, (u == w) = true ∧ w.Holds g (f u)) ∧
        ∀ u ∈ us, ∀ w, (u == w) = true → f u = f w := by
  have hnonempty : Nonempty (Variable → U) := ⟨a⟩
  have hassignment : ∀ u ∈ us, ∃ b, Keeps vars a b ∧ ∃ w ∈ us, (u == w) = true ∧ w.Holds g b := by
    intro u hu
    obtain ⟨w, hw, huw, b, hb, hholds⟩ := h u hu
    exact ⟨b, hb, w, hw, huw, hholds⟩
  choose! f hf using hassignment
  -- The first statement of a shape stands for all of them.
  have hfirst : ∀ u ∈ us, ∃ first, us.find? (u == ·) = some first ∧ first ∈ us ∧
      (u == first) = true := by
    intro u hu
    cases hfind : us.find? (u == ·) with
    | none => simpa using List.find?_eq_none.1 hfind u hu
    | some first =>
      exact ⟨first, rfl, List.mem_of_find?_eq_some hfind, List.find?_some hfind⟩
  refine ⟨fun u => f ((us.find? (u == ·)).getD u), fun u hu => ?_, fun u hu w huw => ?_⟩
  · obtain ⟨first, hfind, hmem, hbeq⟩ := hfirst u hu
    obtain ⟨hkeeps, w, hw, hfirstw, hholds⟩ := hf first hmem
    simp only [hfind, Option.getD_some]
    exact ⟨hkeeps, w, hw, BEq.trans hbeq hfirstw, hholds⟩
  · obtain ⟨first, hfind, -⟩ := hfirst u hu
    have hsame : (fun x => w == x) = fun x => u == x := funext fun x => (BEq.congr_left huw).symm
    simp only [hsame, hfind, Option.getD_some]

/-- If each denied unit has one of its shape that holds for some extension, and the units are
separate, all that is denied holds for one extension. -/
theorem Statement.Separate.exists_holds {g : Graph U} {asserted denied : List Statement}
    {a : Variable → U} (hseparate : Separate asserted denied)
    (h : ∀ u ∈ denials denied, ∃ w ∈ denials denied, (u == w) = true ∧
      w.HoldsBeyond g (varsOf asserted) a) :
    ∃ b, Keeps (varsOf asserted) a b ∧ ∀ s ∈ denied, s.Holds g b := by
  have hnonempty : Nonempty (Variable → U) := ⟨a⟩
  obtain ⟨base, hbase, hshape⟩ := exists_base h
  have hunit : ∀ u ∈ denials denied, ∃ b : Variable → U, Keeps (varsOf asserted) a b ∧
      (∀ v : Variable, v.isNamed = true → b v = base u v) ∧ u.Holds g b := by
    intro u hu
    obtain ⟨hkeeps, w, hw, huw, hholds⟩ := hbase u hu
    rcases hseparate.slots w hw u hu (BEq.symm huw) with rfl | ⟨hnodup, hfree⟩
    · exact ⟨base w, hkeeps, fun _ _ => rfl, hholds⟩
    · obtain ⟨b, hb, hholds⟩ := exists_holds_of_beq (BEq.symm huw) hholds hnodup
      refine ⟨b, fun v hv => ?_, fun v hv => hb v (not_mem_unnamed_of_isNamed hv), hholds⟩
      rw [hb v fun hmem => hfree v hmem hv, hkeeps v hv]
  choose! f hf using hunit
  obtain ⟨b, hb, hcommon⟩ := exists_common (fun u hu => (hf u hu).1) fun u hu w hw v hvu hvw => by
    rcases hseparate.shared u hu w hw v hvu hvw with hv | rfl | ⟨huw, hnamed⟩
    · rw [(hf u hu).1 v hv, (hf w hw).1 v hv]
    · rfl
    · rw [(hf u hu).2.1 v hnamed, (hf w hw).2.1 v hnamed, hshape u hu w huw]
  refine ⟨b, hb, fun s hs => ?_⟩
  have hs' : s.negated.Holds g b := by
    refine holds_of_units (hseparate.typedOnce s hs) fun u hu => ?_
    have hu : u ∈ denials denied := List.mem_flatMap.2 ⟨s, hs, hu⟩
    exact (holds_congr (hcommon u hu)).2 (hf u hu).2.2
  exact holds_negated.1 hs'

theorem Statement.holds_relation {g : Graph U} {a : Variable → U} {var : Variable}
    {polarity : Polarity} {players : List RolePlayer} :
    (Statement.mk var polarity [.relation players]).Holds g a ↔
      ∀ rp ∈ players, ∃ edge, g.playing rp.role (a var) edge (a rp.player) := by
  simp [Holds, withInner, inner, Property.innerOf, Property.inner, Property.Holds]

/-- No assignment that makes the asserted statements true and has an extension for which all denied
ones hold is accepted by a compiled conjunction, unless numbers run out. If the denied units are
separate, every other assignment is. -/
theorem Compiler.compileMatch_except {asserted denied : List Statement} {c c' : Compiler}
    {ks : List CompiledConjunction}
    (h : (compileMatch (.except asserted denied)).run c = (.ok ks, c'))
    (hreach : c.reach (.except asserted denied) ≤ 2 ^ 64)
    (hasserted : Statement.AllPositive asserted) (hdenied : Statement.AllPositive denied)
    (g : Graph U) (a : Variable → U) (ha : ∀ s ∈ asserted, s.Holds g a) :
    let vars := Statement.varsOf asserted
    ((∃ k ∈ ks, k.Accepts g vars a) → ¬∃ b, Keeps vars a b ∧ ∀ s ∈ denied, s.Holds g b) ∧
      (Statement.Separate asserted denied →
        ((∃ k ∈ ks, k.Accepts g vars a) ↔ ¬∃ b, Keeps vars a b ∧ ∀ s ∈ denied, s.Holds g b)) := by
  intro vars
  have hsound : (∃ k ∈ ks, k.Accepts g vars a) →
      ¬∃ b, Keeps vars a b ∧ ∀ s ∈ denied, s.Holds g b := by
    rintro hk ⟨b, hb, hholds⟩
    obtain ⟨u, hu, hnone⟩ := exists_not_holdsBeyond_of_accepts h hreach hasserted hdenied ha hk
    exact hnone ⟨b, hb, Statement.holds_of_mem_denials hholds hu⟩
  refine ⟨hsound, fun hseparate => ⟨hsound, fun hnone => ?_⟩⟩
  by_contra hks
  refine hnone (hseparate.exists_holds fun u hu => ?_)
  exact exists_holdsBeyond_of_not_accepts h hreach hasserted hdenied ha hks hu

/-- Persons that do not both work and own something, matched against a graph of one type and one
person, who does neither. -/
theorem Compiler.compileMatch_except_idle :
    let x : Variable := .named "x"
    let person : Statement := ⟨x, .positive, [.isa (.labelled (.generated 0) ⟨"person"⟩) false]⟩
    let works : Statement := ⟨.named "r", .positive,
      [.relation [⟨some ⟨"employee"⟩, x⟩, ⟨some ⟨"employer"⟩, .named "y"⟩]]⟩
    let owns : Statement := ⟨.named "s", .positive,
      [.relation [⟨some ⟨"owner"⟩, x⟩, ⟨some ⟨"owned"⟩, .named "z"⟩]]⟩
    let g : Graph Bool :=
      ⟨fun concept type => !concept && type, fun _ _ => False, fun type l => type ∧ l = ⟨"person"⟩,
        fun _ _ => False, fun _ _ => False, fun _ _ => False, fun _ _ _ => False, fun _ _ => False,
        fun _ _ _ => False, fun _ _ => False⟩
    let a : Variable → Bool := fun v => !v.isNamed
    let c : Compiler := .start .standard
    ∃ ks c', (compileMatch (.except [person] [works, owns])).run c = (.ok ks, c') ∧
      c.reach (.except [person] [works, owns]) ≤ 2 ^ 64 ∧ ks.length = 2 ∧
      Statement.AllPositive [person] ∧ Statement.AllPositive [works, owns] ∧
      (∀ s ∈ [person], s.Holds g a) ∧ Statement.Separate [person] [works, owns] ∧
      ∃ k ∈ ks, k.Accepts g (Statement.varsOf [person]) a := by
  intro x person works owns g a c
  have hrun : ((compileMatch (.except [person] [works, owns])).run c).1.toOption.any
      (·.length = 2) = true := by
    cbv
  have hreach : c.reach (.except [person] [works, owns]) ≤ 2 ^ 64 := by
    have hnumber : c.reach (.except [person] [works, owns]) = 7 := by cbv
    omega
  have hasserted : Statement.AllPositive [person] := by
    simp [Statement.AllPositive, person]
  have hdenied : Statement.AllPositive [works, owns] := by
    simp [Statement.AllPositive, works, owns]
  have ha : ∀ s ∈ [person], s.Holds g a := by
    simp [person, g, a, x, Statement.Holds, Statement.withInner, Statement.inner,
      Property.innerOf, Property.inner, TypeRef.labelStatement?, TypeRef.labelled, Property.Holds,
      Graph.instanceOf, Graph.below, Variable.isNamed, Relation.ReflTransGen.refl]
  have hdenials : Statement.denials [works, owns] = [works.negated, owns.negated] := rfl
  have hseparate : Statement.Separate [person] [works, owns] := by
    refine ⟨?_, ?_, ?_⟩
    · decide
    · have hboth : (∀ v ∈ works.negated.allVars, v ∈ owns.negated.allVars →
          v ∈ Statement.varsOf [person]) := by decide
      rw [hdenials]
      simp only [List.mem_cons, List.not_mem_nil, or_false]
      rintro u (rfl | rfl) w (rfl | rfl) v hu hw
      · exact .inr (.inl rfl)
      · exact .inl (hboth v hu hw)
      · exact .inl (hboth v hw hu)
      · exact .inr (.inl rfl)
    · have hshapes : (works.negated == owns.negated) = false := by decide
      rw [hdenials]
      simp only [List.mem_cons, List.not_mem_nil, or_false]
      rintro u (rfl | rfl) w (rfl | rfl) huw
      · exact .inl rfl
      · rw [hshapes] at huw
        cases huw
      · rw [BEq.comm, hshapes] at huw
        cases huw
      · exact .inl rfl
  have hnone : ¬∃ b, Keeps (Statement.varsOf [person]) a b ∧ ∀ s ∈ [works, owns], s.Holds g b := by
    rintro ⟨b, -, hb⟩
    obtain ⟨edge, hjoins, -⟩ := Statement.holds_relation.1 (hb works List.mem_cons_self) _
      List.mem_cons_self
    exact hjoins
  obtain ⟨ks, c', hcompile, hlength⟩ := exists_run_of_any hrun
  refine ⟨ks, c', hcompile, hreach, of_decide_eq_true hlength, hasserted, hdenied, ha, hseparate, ?_⟩
  exact ((compileMatch_except hcompile hreach hasserted hdenied g a ha).2 hseparate).2 hnone

/-- Persons that do not own what they work for, matched against a person who works for one company
and owns another: neither unit can be denied by itself. -/
theorem Compiler.compileMatch_except_other_company :
    let x : Variable := .named "x"
    let y : Variable := .named "y"
    let person : Statement := ⟨x, .positive, [.isa (.labelled (.generated 0) ⟨"person"⟩) false]⟩
    let works : Statement := ⟨.named "r", .positive,
      [.relation [⟨some ⟨"employee"⟩, x⟩, ⟨some ⟨"employer"⟩, y⟩]]⟩
    let owns : Statement := ⟨.named "s", .positive,
      [.relation [⟨some ⟨"owner"⟩, x⟩, ⟨some ⟨"owned"⟩, y⟩]]⟩
    let g : Graph Nat :=
      ⟨fun concept type => concept = 0 ∧ type = 1, fun _ _ => False,
        fun type l => type = 1 ∧ l = ⟨"person"⟩, fun _ _ => False, fun _ _ => False,
        fun _ _ => False, fun _ _ _ => False, fun _ _ => False,
        fun relation edge player =>
          (relation, edge, player) ∈ [(4, 6, 0), (4, 7, 2), (5, 8, 0), (5, 9, 3)],
        fun edge role =>
          (edge, role) ∈ [(6, ⟨"employee"⟩), (7, ⟨"employer"⟩), (8, ⟨"owner"⟩), (9, ⟨"owned"⟩)]⟩
    let a : Variable → Nat := fun v => if v = x then 0 else 1
    let vars := Statement.varsOf [person]
    ∃ ks c', (compileMatch (.except [person] [works, owns])).run (.start .standard) = (.ok ks, c') ∧
      (∀ s ∈ [person], s.Holds g a) ∧
      ¬((∃ k ∈ ks, k.Accepts g vars a) ↔
        ¬∃ b, Keeps vars a b ∧ ∀ s ∈ [works, owns], s.Holds g b) := by
  intro x y person works owns g a vars
  have hreach : (start .standard).reach (.except [person] [works, owns]) ≤ 2 ^ 64 := by
    have hnumber : (start .standard).reach (.except [person] [works, owns]) = 7 := by cbv
    omega
  have hrun : ((compileMatch (.except [person] [works, owns])).run
      (.start .standard)).1.toOption.any (·.length = 2) = true := by
    cbv
  have hasserted : Statement.AllPositive [person] := by
    simp [Statement.AllPositive, person]
  have hdenied : Statement.AllPositive [works, owns] := by
    simp [Statement.AllPositive, works, owns]
  have ha : ∀ s ∈ [person], s.Holds g a := by
    simp [person, g, a, x, Statement.Holds, Statement.withInner, Statement.inner,
      Property.innerOf, Property.inner, TypeRef.labelStatement?, TypeRef.labelled, Property.Holds,
      Graph.instanceOf, Graph.below, Relation.ReflTransGen.refl]
  have hvars : ∀ b : Variable → Nat, b x = 0 → b (.generated 0) = 1 → Keeps vars a b := by
    intro b hx htype v hv
    have hv : v = x ∨ v = .generated 0 := by
      have hall : ∀ v ∈ vars, v = x ∨ v = .generated 0 := by decide
      exact hall v hv
    rcases hv with rfl | rfl
    · exact hx
    · exact htype
  have hworks : works.negated.HoldsBeyond g vars a := by
    refine ⟨fun v => if v = x then 0 else if v = y then 2 else if v = .named "r" then 4 else 1,
      hvars _ rfl rfl, Statement.holds_relation.2 ?_⟩
    simp [g, x, y, works, Graph.playing]
  have howns : owns.negated.HoldsBeyond g vars a := by
    refine ⟨fun v => if v = x then 0 else if v = y then 3 else if v = .named "s" then 5 else 1,
      hvars _ rfl rfl, Statement.holds_relation.2 ?_⟩
    simp [g, x, y, owns, Graph.playing]
  have hnone : ¬∃ b, Keeps vars a b ∧ ∀ s ∈ [works, owns], s.Holds g b := by
    rintro ⟨b, -, hb⟩
    have hemployer : b y = 2 := by
      obtain ⟨edge, hjoins, hplays⟩ := Statement.holds_relation.1 (hb works (by simp))
        ⟨some ⟨"employer"⟩, y⟩ (by simp)
      have hedge : edge = 7 := by simpa [g] using hplays
      have hends : b (.named "r") = 4 ∧ b y = 2 := by simpa [g, hedge] using hjoins
      exact hends.2
    have howned : b y = 3 := by
      obtain ⟨edge, hjoins, hplays⟩ := Statement.holds_relation.1 (hb owns (by simp))
        ⟨some ⟨"owned"⟩, y⟩ (by simp)
      have hedge : edge = 9 := by simpa [g] using hplays
      have hends : b (.named "s") = 5 ∧ b y = 3 := by simpa [g, hedge] using hjoins
      exact hends.2
    omega
  obtain ⟨ks, c', hcompile, -⟩ := exists_run_of_any hrun
  refine ⟨ks, c', hcompile, ha, fun hiff => ?_⟩
  obtain ⟨u, hu, hneither⟩ :=
    exists_not_holdsBeyond_of_accepts hcompile hreach hasserted hdenied ha (hiff.2 hnone)
  have hu : u ∈ [works.negated, owns.negated] := hu
  simp only [List.mem_cons, List.not_mem_nil, or_false] at hu
  rcases hu with rfl | rfl
  · exact hneither hworks
  · exact hneither howns

end GraphQuery
