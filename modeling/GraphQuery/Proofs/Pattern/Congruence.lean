import GraphQuery.Pattern.Validation
import GraphQuery.Proofs.Pattern.Equality
import GraphQuery.Proofs.Pattern.Parts
import GraphQuery.Proofs.Statement.Splitting

/-!
# Normal forms of equal patterns

The normal form reads a pattern only up to equality, except for statements that come out denied: these
fall into units, which see the order of a statement's properties and how often they occur. So equal
patterns have equal normal forms and equal bounds as long as their denied statements split alike, and
an equal pair of denied statements that do not is told apart.
-/

namespace GraphQuery

/-- Conjunctions of equal statements, whatever their order. -/
abbrev CoversConjunctions (cs ds : List (List Statement)) : Prop :=
  Covers (Covers fun s t => (s == t) = true) cs ds

theorem covers_of_perm {c d : List Statement} (h : c.Perm d) :
    Covers (fun s t => (s == t) = true) c d := .of_mem_iff (fun _ => BEq.rfl) fun _ => h.mem_iff

theorem coversConjunctions_of_mem_iff {cs ds : List (List Statement)} (h : ∀ c, c ∈ cs ↔ c ∈ ds) :
    CoversConjunctions cs ds := .of_mem_iff (fun _ => covers_of_perm (.refl _)) h

theorem coversConjunctions_trans {cs ds es : List (List Statement)} (h : CoversConjunctions cs ds)
    (k : CoversConjunctions ds es) : CoversConjunctions cs es :=
  h.trans k fun _ _ _ hcd hde => hcd.trans hde fun _ _ _ => BEq.trans

namespace Pattern

mutual

/-- The statements that an asserted or denied pattern denies, from left to right. -/
def denied : Pattern → Bool → List Statement
  | statement s, isDenied => if isDenied != s.isNegative then [s] else []
  | negation part, isDenied => part.denied !isDenied
  | conjunction parts, isDenied | disjunction parts, isDenied => deniedOf parts isDenied
  termination_by structural p => p

def deniedOf : List Pattern → Bool → List Statement
  | [], _ => []
  | p :: ps, isDenied => p.denied isDenied ++ deniedOf ps isDenied

end

/-- Asserted or denied, the patterns give equal conjunctions, and equally many. -/
structure ExpandsLike (isDenied : Bool) (p q : Pattern) : Prop where
  covers : CoversConjunctions (p.expand isDenied) (q.expand isDenied)
  count : p.count isDenied = q.count isDenied

section Lists

variable {isDenied : Bool} {ps qs : List Pattern}

theorem covers_append {fronts fronts' backs backs' : List (List Statement)}
    (hfronts : CoversConjunctions fronts fronts') (hbacks : CoversConjunctions backs backs') :
    CoversConjunctions (append fronts backs) (append fronts' backs') := by
  constructor
  · intro c hc
    obtain ⟨front, hfront, back, hback, rfl⟩ := mem_append.1 hc
    obtain ⟨front', hfront', hff⟩ := hfronts.1 front hfront
    obtain ⟨back', hback', hbb⟩ := hbacks.1 back hback
    exact ⟨_, mem_append.2 ⟨front', hfront', back', hback', rfl⟩, hff.append hbb⟩
  · intro c hc
    obtain ⟨front', hfront', back', hback', rfl⟩ := mem_append.1 hc
    obtain ⟨front, hfront, hff⟩ := hfronts.2 front' hfront'
    obtain ⟨back, hback, hbb⟩ := hbacks.2 back' hback'
    exact ⟨_, mem_append.2 ⟨front, hfront, back, hback, rfl⟩, hff.append hbb⟩

theorem covers_alternatives (h : List.Forall₂ (ExpandsLike isDenied) ps qs) :
    CoversConjunctions (alternatives ps isDenied) (alternatives qs isDenied) := by
  induction h with
  | nil => exact .nil
  | cons hpq _ ih => exact hpq.covers.append ih

theorem covers_combinations (h : List.Forall₂ (ExpandsLike isDenied) ps qs)
    {fronts fronts' : List (List Statement)} (hfronts : CoversConjunctions fronts fronts') :
    CoversConjunctions (combinations fronts ps isDenied) (combinations fronts' qs isDenied) := by
  induction h generalizing fronts fronts' with
  | nil => exact hfronts
  | cons hpq _ ih => exact ih (covers_append hfronts hpq.covers)

theorem countSum_eq (h : List.Forall₂ (ExpandsLike isDenied) ps qs) (total : Nat) :
    countSum total ps isDenied = countSum total qs isDenied := by
  induction h generalizing total with
  | nil => rfl
  | cons hpq _ ih => rw [countSum, countSum, hpq.count, ih]

theorem countProduct_eq (h : List.Forall₂ (ExpandsLike isDenied) ps qs) (total : Nat) :
    countProduct total ps isDenied = countProduct total qs isDenied := by
  induction h generalizing total with
  | nil => rfl
  | cons hpq _ ih => rw [countProduct, countProduct, hpq.count, ih]

theorem expandsLike_conjunction (h : List.Forall₂ (ExpandsLike isDenied) ps qs) :
    ExpandsLike isDenied (conjunction ps) (conjunction qs) := by
  cases isDenied with
  | false => exact ⟨covers_combinations h (.singleton .nil), countProduct_eq h 1⟩
  | true => exact ⟨covers_alternatives h, countSum_eq h 0⟩

theorem expandsLike_disjunction (h : List.Forall₂ (ExpandsLike isDenied) ps qs) :
    ExpandsLike isDenied (disjunction ps) (disjunction qs) := by
  cases isDenied with
  | false => exact ⟨covers_alternatives h, countSum_eq h 0⟩
  | true => exact ⟨covers_combinations h (.singleton .nil), countProduct_eq h 1⟩

end Lists

theorem withPolarity_beq {s t : Statement} (h : (s == t) = true) (polarity : Polarity) :
    (s.withPolarity polarity == t.withPolarity polarity) = true := by
  obtain ⟨hvar, -, hproperties⟩ := Statement.beq_iff.1 h
  exact Statement.beq_iff.2 ⟨hvar, rfl, hproperties⟩

/-- A denied statement gives one conjunction for each unit. -/
theorem expandsLike_denied_iff {s t : Statement} (h : (s == t) = true) {isDenied : Bool}
    (hs : (isDenied != s.isNegative) = true) :
    ExpandsLike isDenied (statement s) (statement t) ↔ s.SplitsLike t := by
  have ht : (isDenied != t.isNegative) = true := by rwa [← Statement.isNegative_eq_of_beq h]
  have hunits := Statement.units_covers_iff (withPolarity_beq h .negative)
  have hsingle (u w : Statement) :
      Covers (fun s t => (s == t) = true) [u] [w] ↔ (u == w) = true := by simp [Covers]
  rw [Statement.length_units_withPolarity, Statement.length_units_withPolarity] at hunits
  rw [← show (s.withPolarity .negative).SplitsLike (t.withPolarity .negative) ↔ s.SplitsLike t from
    Iff.rfl, ← hunits]
  have hcovers : CoversConjunctions ((statement s).expand isDenied) ((statement t).expand isDenied) ↔
      Covers (fun u w => (u == w) = true) (s.withPolarity .negative).units
        (t.withPolarity .negative).units := by
    rw [expand, expand, Statement.expand, Statement.expand, if_pos hs, if_pos ht,
      CoversConjunctions, Covers.map_iff]
    exact Covers.iff_congr fun u _ w _ => hsingle u w
  have hlength : (statement s).count isDenied = (statement t).count isDenied ↔
      s.units.length = t.units.length := by
    rw [count, count, Statement.expansionCount, Statement.expansionCount, if_pos hs, if_pos ht]
  exact ⟨fun hlike => ⟨hcovers.1 hlike.covers, hlength.1 hlike.count⟩,
    fun hlike => ⟨hcovers.2 hlike.1, hlength.2 hlike.2⟩⟩

theorem expandsLike_asserted {s t : Statement} (h : (s == t) = true) {isDenied : Bool}
    (hs : (isDenied != s.isNegative) = false) :
    ExpandsLike isDenied (statement s) (statement t) := by
  have ht : (isDenied != t.isNegative) = false := by rwa [← Statement.isNegative_eq_of_beq h]
  constructor
  · rw [expand, expand, Statement.expand, Statement.expand, hs, ht]
    exact .singleton (.singleton (withPolarity_beq h .positive))
  · rw [count, count, Statement.expansionCount, Statement.expansionCount, hs, ht]
    rfl

/-- What holds of two equal patterns, asserted or denied: they deny statements in the same places, and
they expand alike if these split alike. -/
structure DeniesLike (p q : Pattern) (isDenied : Bool) : Prop where
  length : (p.denied isDenied).length = (q.denied isDenied).length
  expandsLike : (∀ pair ∈ (p.denied isDenied).zip (q.denied isDenied), pair.1.SplitsLike pair.2) →
    ExpandsLike isDenied p q

theorem expandsLike_of_deniesLike {isDenied : Bool} {ps qs : List Pattern}
    (h : List.Forall₂ (fun p q => ∀ isDenied, p.DeniesLike q isDenied) ps qs) :
    (deniedOf ps isDenied).length = (deniedOf qs isDenied).length ∧
      ((∀ pair ∈ (deniedOf ps isDenied).zip (deniedOf qs isDenied), pair.1.SplitsLike pair.2) →
        List.Forall₂ (ExpandsLike isDenied) ps qs) := by
  induction h with
  | nil => exact ⟨rfl, fun _ => .nil⟩
  | @cons p q ps qs hpq _ ih =>
    have hlength := (hpq isDenied).length
    refine ⟨by rw [deniedOf, deniedOf, List.length_append, List.length_append, hlength, ih.1], ?_⟩
    intro hsplit
    rw [deniedOf, deniedOf, List.zip_append hlength] at hsplit
    exact .cons
      ((hpq isDenied).expandsLike fun pair hpair => hsplit pair (List.mem_append_left _ hpair))
      (ih.2 fun pair hpair => hsplit pair (List.mem_append_right _ hpair))

theorem deniesLike_of_beq {p q : Pattern} (h : (p == q) = true) (isDenied : Bool) :
    p.DeniesLike q isDenied := by
  refine beq_induction (motive := fun p q => ∀ isDenied, p.DeniesLike q isDenied)
    ?_ ?_ ?_ ?_ h isDenied
  · intro s t hst isDenied
    constructor
    case length =>
      rw [denied, denied, Statement.isNegative_eq_of_beq hst]
      split <;> rfl
    case expandsLike =>
      intro hsplit
      cases hs : isDenied != s.isNegative with
      | false => exact expandsLike_asserted hst hs
      | true =>
        rw [denied, denied, ← Statement.isNegative_eq_of_beq hst, if_pos hs, if_pos hs] at hsplit
        exact (expandsLike_denied_iff hst hs).2 (hsplit (s, t) List.mem_cons_self)
  · intro ps qs ih isDenied
    exact ⟨(expandsLike_of_deniesLike ih).1,
      fun hsplit => expandsLike_conjunction ((expandsLike_of_deniesLike ih).2 hsplit)⟩
  · intro ps qs ih isDenied
    exact ⟨(expandsLike_of_deniesLike ih).1,
      fun hsplit => expandsLike_disjunction ((expandsLike_of_deniesLike ih).2 hsplit)⟩
  · intro p q ih isDenied
    exact ⟨(ih !isDenied).length, fun hsplit =>
      ⟨((ih !isDenied).expandsLike hsplit).covers, ((ih !isDenied).expandsLike hsplit).count⟩⟩

theorem normalForm_beq_iff {p q : Pattern} :
    (p.normalForm == q.normalForm) = true ↔ CoversConjunctions (p.expand false) (q.expand false) := by
  rw [normalForm, normalForm, Distinct.ofList_beq_iff, Covers.map_iff]
  exact Covers.iff_congr fun c _ d _ => Distinct.ofList_beq_iff

theorem normalForm_beq_of_mem_iff {p q : Pattern}
    (h : ∀ c, c ∈ p.expand false ↔ c ∈ q.expand false) : (p.normalForm == q.normalForm) = true :=
  normalForm_beq_iff.2 (coversConjunctions_of_mem_iff h)

/-- Equal patterns whose denied statements split alike have equal normal forms and equal bounds, so
that both are normalized under a limit or neither is. Of two denied statements the same holds only if
they split alike. -/
theorem normalForm_congr (p q : Pattern) (h : (p == q) = true) :
    ((∀ pair ∈ (p.denied false).zip (q.denied false), pair.1.SplitsLike pair.2) →
      (p.normalForm == q.normalForm) = true ∧ p.bound = q.bound ∧
        ∀ limit, (p.normalize limit).isOk = (q.normalize limit).isOk) ∧
    ∀ s t : Statement, s.isNegative = false →
      p = .negation (.statement s) → q = .negation (.statement t) →
      (p.normalForm == q.normalForm) = true → p.bound = q.bound → s.SplitsLike t := by
  constructor
  · intro hsplit
    have hlike := (deniesLike_of_beq h false).expandsLike hsplit
    have hbound : p.bound = q.bound := hlike.count
    refine ⟨normalForm_beq_iff.2 hlike.covers, hbound, ?_⟩
    intro limit
    rw [normalize, normalize, hbound]
    split <;> rfl
  · rintro s t hs rfl rfl hform hbound
    have hst : (s == t) = true := h
    have hdenied : (true != s.isNegative) = true := by rw [hs]; rfl
    exact (expandsLike_denied_iff hst hdenied).1 ⟨normalForm_beq_iff.1 hform, hbound⟩

/-- A denied relation with two groups of players: its type and the generated variable may stand
anywhere, as long as the same group comes first. -/
theorem normalForm_congr_marriage :
    let spouses : Property := .relation [⟨none, .named "x"⟩, ⟨none, .named "y"⟩]
    let witnesses : Property := .relation [⟨none, .generated 0⟩]
    let witnesses' : Property := .relation [⟨none, .generated 7⟩]
    let marriage : Property := .isa (.labelled (.generated 1) ⟨"marriage"⟩) false
    let p : Pattern := .negation (.conjunction [.statement ⟨.named "r", .positive,
      [spouses, witnesses, marriage]⟩, .disjunction []])
    let q : Pattern := .negation (.conjunction [.statement ⟨.named "r", .positive,
      [marriage, spouses, witnesses']⟩, .disjunction []])
    (p == q) = true ∧ (∀ pair ∈ (p.denied false).zip (q.denied false), pair.1.SplitsLike pair.2) ∧
      (p.normalForm == q.normalForm) = true ∧ p.bound = q.bound ∧
      ∀ limit, (p.normalize limit).isOk = (q.normalize limit).isOk := by
  intro spouses witnesses witnesses' marriage p q
  have hpq : (p == q) = true := by decide
  have hsplit : ∀ pair ∈ (p.denied false).zip (q.denied false), pair.1.SplitsLike pair.2 := by
    decide
  exact ⟨hpq, hsplit, (normalForm_congr p q hpq).1 hsplit⟩

/-- With the groups of players in another order, the type goes to another group; and a relation that is
given twice makes for a further unit, but a type that is given twice does not. -/
theorem normalForm_not_congr :
    let spouses : Property := .relation [⟨none, .named "x"⟩, ⟨none, .named "y"⟩]
    let witnesses : Property := .relation [⟨none, .named "z"⟩]
    let marriage : Property := .isa (.labelled (.generated 0) ⟨"marriage"⟩) false
    let not (properties : List Property) : Pattern :=
      .negation (.statement ⟨.named "r", .positive, properties⟩)
    ((not [spouses, witnesses, marriage] == not [witnesses, spouses, marriage]) = true ∧
      ((not [spouses, witnesses, marriage]).normalForm ==
        (not [witnesses, spouses, marriage]).normalForm) = false) ∧
    (not [spouses, spouses, marriage] == not [spouses, marriage, marriage]) = true ∧
      (not [spouses, spouses, marriage]).bound = 2 ∧
      (not [spouses, marriage, marriage]).bound = 1 := by
  refine ⟨⟨?_, ?_⟩, ?_, ?_, ?_⟩ <;> decide

end Pattern

end GraphQuery
