import GraphQuery.Pattern.NormalForm
import GraphQuery.Proofs.Collection.Distinct
import GraphQuery.Proofs.Statement.Equality
import GraphQuery.Proofs.Statement.Units

/-!
# The meaning of patterns

An interpretation says which properties hold of which variables, and thereby which patterns are
true. The normal form of a pattern is true exactly when the pattern is (`eval_normalForm`): negation
moves inwards by the laws of De Morgan, down to the units of a statement, and neither of the two
collapses of equal members loses anything.
-/

namespace GraphQuery

/-- Which properties hold of which variables. Variables and properties of one shape are not told
apart. -/
structure Interpretation where
  /-- Whether the property holds of the variable. -/
  holds : Variable → Property → Bool
  /-- What holds of a variable holds of all of its shape, and so do all properties of one shape. -/
  holds_congr : ∀ {v w : Variable} {p q : Property},
    v.alike w = true → (p == q) = true → holds v p = holds w q

variable (i : Interpretation)

/-- An asserted statement is true when all its properties hold, a denied one when not all do. -/
def Statement.eval (s : Statement) : Bool :=
  if s.isNegative then !s.properties.all (i.holds s.var) else s.properties.all (i.holds s.var)

namespace Pattern

mutual

/-- The truth of a pattern, with the usual connectives. -/
def eval : Pattern → Bool
  | statement s => s.eval i
  | conjunction parts => evalAll parts
  | disjunction parts => evalAny parts
  | negation part => !part.eval
  termination_by structural p => p

def evalAll : List Pattern → Bool
  | [] => true
  | p :: ps => p.eval && evalAll ps

def evalAny : List Pattern → Bool
  | [] => false
  | p :: ps => p.eval || evalAny ps

end

theorem evalAll_eq_all (ps : List Pattern) : evalAll i ps = ps.all (·.eval i) := by
  induction ps with
  | nil => rfl
  | cons p ps ih => rw [evalAll, ih, List.all_cons]

theorem evalAny_eq_any (ps : List Pattern) : evalAny i ps = ps.any (·.eval i) := by
  induction ps with
  | nil => rfl
  | cons p ps ih => rw [evalAny, ih, List.any_cons]

theorem induction {motive : Pattern → Prop} (statement : ∀ s, motive (.statement s))
    (conjunction : ∀ parts, (∀ p ∈ parts, motive p) → motive (.conjunction parts))
    (disjunction : ∀ parts, (∀ p ∈ parts, motive p) → motive (.disjunction parts))
    (negation : ∀ part, motive part → motive (.negation part)) (p : Pattern) : motive p :=
  @Pattern.rec motive (fun ps => ∀ p ∈ ps, motive p) statement conjunction disjunction negation
    nofun (fun _ _ hp hps _ h => (List.mem_cons.1 h).elim (fun e => e ▸ hp) (hps _)) p

theorem statementsOf_eq_flatMap (ps : List Pattern) :
    statementsOf ps = ps.flatMap statements := by
  induction ps with
  | nil => rfl
  | cons p ps ih => rw [statementsOf, ih, List.flatMap_cons]

end Pattern

section Expansion

variable (i : Interpretation)

/-- Whether the statements of some conjunction are all true. -/
def anyHolds (cs : List (List Statement)) : Bool := cs.any fun c => c.all (·.eval i)

theorem anyHolds_append (fronts backs : List (List Statement)) :
    anyHolds i (Pattern.append fronts backs) = (anyHolds i fronts && anyHolds i backs) := by
  have hfront (front : List Statement) :
      (backs.any fun back => (front ++ back).all (·.eval i)) =
        (front.all (·.eval i) && anyHolds i backs) := by
    simp only [List.all_append, anyHolds, List.and_any_distrib_left]
  simp only [anyHolds, Pattern.append, List.any_flatMap, List.any_map, Function.comp_def]
  rw [List.and_any_distrib_right]
  exact congrArg _ (funext hfront)

theorem Statement.any_units_eval {s : Statement} (h : s.TypedOnce) (hs : s.isNegative = true) :
    (s.units.any (·.eval i)) = !s.properties.all (i.holds s.var) := by
  have hunit : ∀ u ∈ s.units, u.eval i = !u.properties.all (i.holds s.var) := by
    intro u hu
    have hneg : u.isNegative = true := by
      rw [isNegative, polarity_eq_of_mem_units hu]
      exact hs
    rw [Statement.eval, if_pos hneg, var_eq_of_mem_units hu]
  calc
    s.units.any (·.eval i) = s.units.any fun u => !u.properties.all (i.holds s.var) := by
      rw [Bool.eq_iff_iff, List.any_eq_true, List.any_eq_true]
      exact exists_congr fun u => and_congr_right fun hu => by rw [hunit u hu]
    _ = !(s.units.flatMap (·.properties)).all (i.holds s.var) := by
      rw [List.all_flatMap, List.not_all_eq_any_not]
    _ = !s.properties.all (i.holds s.var) := by rw [(flatMap_units h).all_eq]

theorem Statement.eval_eq_bne (s : Statement) :
    s.eval i = (s.isNegative != s.properties.all (i.holds s.var)) := by
  rw [eval]
  cases s.isNegative <;> simp

theorem Statement.anyHolds_expand {s : Statement} (h : s.TypedOnce) (denied : Bool) :
    anyHolds i (s.expand denied) = (denied != s.eval i) := by
  rw [expand, eval_eq_bne, ← Bool.bne_assoc]
  split
  · rename_i hdenied
    have hunits : ((s.withPolarity .negative).units.any (·.eval i)) =
        !s.properties.all (i.holds s.var) := any_units_eval i (s := s.withPolarity .negative) h rfl
    simpa [anyHolds, hdenied, Function.comp_def] using hunits
  · rename_i hdenied
    rw [Bool.not_eq_true] at hdenied
    rw [hdenied, Bool.false_bne]
    simp only [anyHolds, List.any_cons, List.any_nil, List.all_cons, List.all_nil, Bool.and_true,
      Bool.or_false]
    rfl

namespace Pattern

theorem anyHolds_alternatives {ps : List Pattern} {denied : Bool}
    (h : ∀ p ∈ ps, anyHolds i (p.expand denied) = (denied != p.eval i)) :
    anyHolds i (alternatives ps denied) = ps.any fun p => denied != p.eval i := by
  induction ps with
  | nil => rfl
  | cons p ps ih =>
    rw [alternatives, List.any_cons, ← h p List.mem_cons_self,
      ← ih fun q hq => h q (List.mem_cons_of_mem _ hq)]
    exact List.any_append

theorem anyHolds_combinations {ps : List Pattern} {denied : Bool}
    (h : ∀ p ∈ ps, anyHolds i (p.expand denied) = (denied != p.eval i))
    (fronts : List (List Statement)) :
    anyHolds i (combinations fronts ps denied) =
      (anyHolds i fronts && ps.all fun p => denied != p.eval i) := by
  induction ps generalizing fronts with
  | nil => simp [combinations]
  | cons p ps ih =>
    rw [combinations, ih fun q hq => h q (List.mem_cons_of_mem _ hq), anyHolds_append,
      h p List.mem_cons_self, List.all_cons, Bool.and_assoc]

theorem typedOnce_of_mem {parts : List Pattern} {p : Pattern}
    (h : ∀ s ∈ statementsOf parts, s.TypedOnce) (hp : p ∈ parts) :
    ∀ s ∈ p.statements, s.TypedOnce := by
  intro s hs
  rw [statementsOf_eq_flatMap] at h
  exact h s (List.mem_flatMap.2 ⟨p, hp, hs⟩)

/-- Some conjunction of an asserted pattern is true exactly when the pattern is, and some of a
denied one exactly when it is not. -/
theorem anyHolds_expand (p : Pattern) (h : ∀ s ∈ p.statements, s.TypedOnce) (denied : Bool) :
    anyHolds i (p.expand denied) = (denied != p.eval i) := by
  induction p using Pattern.induction generalizing denied with
  | statement s => exact Statement.anyHolds_expand i (h s List.mem_cons_self) denied
  | negation part ih =>
    rw [expand, ih h, eval]
    cases denied <;> simp
  | conjunction parts ih =>
    have hpart (denied : Bool) (p : Pattern) (hp : p ∈ parts) :
        anyHolds i (p.expand denied) = (denied != p.eval i) :=
      ih p hp (typedOnce_of_mem h hp) denied
    rw [expand, eval, evalAll_eq_all]
    cases denied with
    | false =>
      rw [if_neg Bool.false_ne_true, anyHolds_combinations i (hpart false)]
      simp [anyHolds]
    | true =>
      rw [if_pos rfl, anyHolds_alternatives i (hpart true)]
      simp [List.not_all_eq_any_not]
  | disjunction parts ih =>
    have hpart (denied : Bool) (p : Pattern) (hp : p ∈ parts) :
        anyHolds i (p.expand denied) = (denied != p.eval i) :=
      ih p hp (typedOnce_of_mem h hp) denied
    rw [expand, eval, evalAny_eq_any]
    cases denied with
    | false =>
      rw [if_neg Bool.false_ne_true, anyHolds_alternatives i (hpart false)]
      simp
    | true =>
      rw [if_pos rfl, anyHolds_combinations i (hpart true)]
      simp [anyHolds, List.not_any_eq_all_not]

end Pattern

end Expansion

section Collapse

variable (i : Interpretation)

theorem Statement.eval_congr {s t : Statement} (h : (s == t) = true) : s.eval i = t.eval i := by
  have ⟨hvar, hpolarity, _, hsub, hsup⟩ := Statement.beq_iff.1 h
  have hall : s.properties.all (i.holds s.var) = t.properties.all (i.holds t.var) := by
    rw [Bool.eq_iff_iff, List.all_eq_true, List.all_eq_true]
    constructor
    · intro hs q hq
      obtain ⟨p, hp, hpq⟩ := hsup q hq
      exact i.holds_congr hvar hpq ▸ hs p hp
    · intro ht p hp
      obtain ⟨q, hq, hpq⟩ := hsub p hp
      exact (i.holds_congr hvar hpq).symm ▸ ht q hq
  rw [eval_eq_bne, eval_eq_bne, hall, isNegative, isNegative, hpolarity]

theorem Conjunction.all_ofList (l : List Statement) :
    (Distinct.ofList l).toList.all (·.eval i) = l.all (·.eval i) :=
  Distinct.all_eraseDups (fun _ _ => Statement.eval_congr i) l

theorem Pattern.any_normalForm (p : Pattern) :
    (p.normalForm.toList.any fun c => c.toList.all (·.eval i)) = anyHolds i (p.expand false) := by
  have hcongr (c d : Conjunction) (h : (c == d) = true) :
      c.toList.all (·.eval i) = d.toList.all (·.eval i) :=
    Distinct.all_congr (fun _ _ => Statement.eval_congr i) h
  rw [normalForm, Distinct.ofList, Distinct.any_eraseDups hcongr, List.any_map, anyHolds]
  exact List.any_congr rfl fun c => Conjunction.all_ofList i c

/-- A pattern is true exactly when all statements of some conjunction of its normal form are. -/
theorem Pattern.eval_iff_normalForm (p : Pattern) (h : ∀ s ∈ p.statements, s.TypedOnce) :
    p.eval i = true ↔ ∃ c ∈ p.normalForm.toList, ∀ s ∈ c.toList, s.eval i = true := by
  have hform : (p.normalForm.toList.any fun c => c.toList.all (·.eval i)) = p.eval i := by
    rw [any_normalForm, anyHolds_expand i p h, Bool.false_bne]
  rw [← hform]
  simp only [List.any_eq_true, List.all_eq_true]

end Collapse

/-- Under this interpretation the properties of the given kinds hold of every variable. -/
def Interpretation.ofKinds (holds : PropertyKind → Bool) : Interpretation :=
  ⟨fun _ p => holds p.kind, fun _ h => congrArg holds (Property.kind_eq_of_beq h)⟩

/-- A denied relation with its type and a further property, beside a denial of a denied statement
and a disjunction of nothing. -/
theorem Pattern.eval_iff_normalForm_marriage :
    let i := Interpretation.ofKinds (· ≠ .neq)
    let marriage : Statement := ⟨.named "r", .positive,
      [.relation [⟨none, .named "x"⟩], .isa (.labelled (.generated 0) ⟨"marriage"⟩) false,
        .neq (.named "x")]⟩
    let person : Statement := ⟨.named "x", .negative, [.label ⟨"person"⟩]⟩
    let p : Pattern := .conjunction [.negation (.conjunction [.statement marriage, .conjunction []]),
      .negation (.disjunction [.statement person, .disjunction []])]
    (∀ s ∈ p.statements, s.TypedOnce) ∧ p.eval i = true ∧
      (p.eval i = true ↔ ∃ c ∈ p.normalForm.toList, ∀ s ∈ c.toList, s.eval i = true) := by
  intro i marriage person p
  have typedOnce : ∀ s ∈ p.statements, s.TypedOnce := by decide
  exact ⟨typedOnce, rfl, Pattern.eval_iff_normalForm i p typedOnce⟩

end GraphQuery
