import GraphQuery.Proofs.Unifier.Rule
import Mathlib.Data.List.Forall2

/-!
# More general parents and further players

A parent is more general when it asks for fewer players, or for the same ones with fewer labels, or
for any value of an attribute. A matching of the players stays one when it is restricted to those that
are still asked for, and when the child has further ones. So each unifier for a rule has all pairs of
some unifier of such a child with such a parent.
-/

namespace GraphQuery

/-- The first is the second or nothing. -/
inductive KeptOrDropped {α : Type} : Option α → Option α → Prop
  | kept (x : Option α) : KeptOrDropped x x
  | dropped (x : Option α) : KeptOrDropped none x

theorem labelsCompatible_none (l : Option Label) : labelsCompatible l none = true := by
  cases l <;> rfl

theorem predicatesCompatible_none (p : Option ValuePredicate) :
    predicatesCompatible p none = true := by
  cases p <;> rfl

theorem operandPair?_none (p : Option ValuePredicate) : operandPair? p none = none := by
  cases p <;> simp [operandPair?]

theorem KeptOrDropped.labelsCompatible {l m m' : Option Label} (h : KeptOrDropped m' m)
    (hlabels : labelsCompatible l m = true) : GraphQuery.labelsCompatible l m' = true := by
  cases h with
  | kept => exact hlabels
  | dropped => exact labelsCompatible_none l

namespace RolePlayer

variable {strictness : Strictness} {children children' generals parents : List RolePlayer}

/-- The first asks for the same player, in the same role or in any. -/
structure Generalizes (general special : RolePlayer) : Prop where
  role : KeptOrDropped general.role special.role
  player : general.player = special.player

theorem Generalizes.matchable {child general parent : RolePlayer} (h : general.Generalizes parent)
    (hmatch : child.matchable .rule parent = true) : child.matchable .rule general = true :=
  h.role.labelsCompatible hmatch

/-- The matching as one among further players of the child. -/
def Matching.widen (m : Matching strictness children parents)
    (h : children.Subperm children') : Matching strictness children' parents where
  matched := m.matched
  subperm := m.subperm.trans h
  matchable := m.matchable

@[simp] theorem Matching.pairs_widen (m : Matching strictness children parents)
    (h : children.Subperm children') : (m.widen h).pairs = m.pairs := rfl

/-- A matching restricts to the players that are still asked for. -/
theorem Matching.exists_restriction (h : List.SublistForall₂ Generalizes generals parents)
    (m : Matching .rule children parents) :
    ∃ m' : Matching .rule children generals, m'.pairs.Sublist m.pairs := by
  -- The rest is restricted among the players that it was matched with, so that the child's first
  -- matched player stays free for the first of the parent.
  induction h generalizing children with
  | nil => exact ⟨⟨[], List.nil_subperm, .nil⟩, List.nil_sublist _⟩
  | @cons general parent generals parents hgeneral _ ih =>
    obtain ⟨_, hsubperm, hmatchable⟩ := m
    cases hmatchable with
    | @cons child _ rest _ hmatch hrest =>
      obtain ⟨m', hpairs⟩ := ih ⟨rest, .refl rest, hrest⟩
      refine ⟨⟨child :: m'.matched, ((List.subperm_cons child).2 m'.subperm).trans hsubperm,
        .cons (hgeneral.matchable hmatch) m'.matchable⟩, ?_⟩
      change ((child.player, general.player) :: m'.pairs).Sublist (_ :: _)
      rw [hgeneral.player]
      exact hpairs.cons_cons _
  | @cons_right parent generals parents _ ih =>
    obtain ⟨_, hsubperm, hmatchable⟩ := m
    cases hmatchable with
    | @cons child _ rest _ _ hrest =>
      obtain ⟨m', hpairs⟩ := ih ⟨rest, .refl rest, hrest⟩
      exact ⟨m'.widen ((List.sublist_cons_self child rest).subperm.trans hsubperm), hpairs.cons _⟩

end RolePlayer

namespace AtomKind

/-- The first asks for no more than the second: for some of its players, with labels and a predicate
only where that has them. -/
inductive Generalizes : AtomKind → AtomKind → Prop
  | refl (k : AtomKind) : Generalizes k k
  | isa {v : Variable} {l l' : Option Label} {direct : Bool} (label : KeptOrDropped l' l) :
    Generalizes (isa ⟨v, l'⟩ direct) (isa ⟨v, l⟩ direct)
  | sub {v : Variable} {l l' : Option Label} {direct : Bool} (label : KeptOrDropped l' l) :
    Generalizes (sub ⟨v, l'⟩ direct) (sub ⟨v, l⟩ direct)
  | resource {attributeType : Label} {owned : Variable} {p p' : Option ValuePredicate}
    (predicate : KeptOrDropped p' p) :
    Generalizes (resource attributeType owned p') (resource attributeType owned p)
  | relation {typeVar : Option Variable} {l l' : Option Label} {bs bs' : List RolePlayer}
    (label : KeptOrDropped l' l) (players : List.SublistForall₂ RolePlayer.Generalizes bs' bs) :
    Generalizes (relation typeVar l' bs') (relation typeVar l bs)

/-- The first is the second with further players, which may stand anywhere among the others. -/
inductive Extends : AtomKind → AtomKind → Prop
  | refl (k : AtomKind) : Extends k k
  | relation {typeVar : Option Variable} {typeLabel : Option Label} {as as' : List RolePlayer}
    (players : as.Sublist as') :
    Extends (relation typeVar typeLabel as') (relation typeVar typeLabel as)

variable {k k' l l' : AtomKind}

theorem Generalizes.players (h : l'.Generalizes l) :
    List.SublistForall₂ RolePlayer.Generalizes l'.players l.players := by
  cases h with
  | refl =>
    rw [List.sublistForall₂_iff]
    exact ⟨_, List.forall₂_same.2 fun p _ => ⟨.kept _, rfl⟩, .refl _⟩
  | relation _ hplayers => exact hplayers
  | _ => exact .nil

theorem Generalizes.compatible (h : l'.Generalizes l) (hcompatible : k.compatible l = true) :
    k.compatible l' = true := by
  cases h with
  | refl => exact hcompatible
  | isa hlabel =>
    cases k with
    | isa _ _ => exact hlabel.labelsCompatible hcompatible
    | _ => cases hcompatible
  | sub hlabel =>
    cases k with
    | sub _ _ => exact hlabel.labelsCompatible hcompatible
    | _ => cases hcompatible
  | resource hpredicate =>
    cases k with
    | resource _ _ p =>
      cases hpredicate with
      | kept => exact hcompatible
      | dropped =>
        rw [AtomKind.compatible, Bool.and_eq_true] at hcompatible ⊢
        exact ⟨hcompatible.1, predicatesCompatible_none p⟩
    | _ => cases hcompatible
  | relation hlabel _ =>
    cases k with
    | relation _ _ _ => exact hlabel.labelsCompatible hcompatible
    | _ => cases hcompatible

/-- Fewer labels leave the variables as they are; a predicate that is dropped takes its own along. -/
theorem Generalizes.fixedPairs_subset (h : l'.Generalizes l) :
    k.fixedPairs l' ⊆ k.fixedPairs l := by
  cases h with
  | refl => exact List.Subset.refl _
  | isa _ => cases k <;> exact List.Subset.refl _
  | sub _ => cases k <;> exact List.Subset.refl _
  | resource hpredicate =>
    cases hpredicate with
    | kept => exact List.Subset.refl _
    | dropped =>
      cases k with
      | resource _ _ p =>
        rw [fixedPairs, operandPair?_none]
        exact List.cons_subset_cons _ (List.nil_subset _)
      | _ => exact List.Subset.refl _
  | relation _ _ => cases k <;> exact List.Subset.refl _

theorem Extends.players (h : k'.Extends k) : k.players.Sublist k'.players := by
  cases h with
  | refl => exact .refl _
  | relation hplayers => exact hplayers

theorem Extends.compatible (h : k'.Extends k) : k'.compatible l = k.compatible l := by
  cases h with
  | refl => rfl
  | relation _ => cases l <;> rfl

theorem Extends.fixedPairs (h : k'.Extends k) : k'.fixedPairs l = k.fixedPairs l := by
  cases h with
  | refl => rfl
  | relation _ => cases l <;> rfl

end AtomKind

namespace Atom

/-- The first asks for no more than the second of the same variable. -/
structure Generalizes (general special : Atom) : Prop where
  var : general.var = special.var
  kind : general.kind.Generalizes special.kind

/-- The first is the second with further players. -/
structure Extends (extended original : Atom) : Prop where
  var : extended.var = original.var
  kind : extended.kind.Extends original.kind

variable {child child' parent parent' : Atom}

theorem fixedPairs_subset (hchild : child'.Extends child) (hparent : parent'.Generalizes parent) :
    child'.fixedPairs parent' ⊆ child.fixedPairs parent := by
  rw [fixedPairs, fixedPairs, hchild.var, hparent.var, hchild.kind.fixedPairs]
  exact List.cons_subset_cons _ hparent.kind.fixedPairs_subset

/-- Each unifier for a rule has all pairs of some unifier of the child, when it gets further players,
with the parent, when it becomes more general. -/
theorem unify_rule_monotone (hchild : child'.Extends child) (hparent : parent'.Generalizes parent) :
    ∀ u ∈ (child.unify parent .rule).toList,
      ∃ u' ∈ (child'.unify parent' .rule).toList, u.containsAll u' = true := by
  intro u hu
  obtain ⟨s, hs, rfl⟩ := MultiUnifier.mem_toList.1 hu
  obtain ⟨hcompatible, m, rfl⟩ := mem_unify_rule_iff_matching.1 hs
  obtain ⟨m', hpairs⟩ := m.exists_restriction hparent.kind.players
  have hcompatible' : child'.kind.compatible parent'.kind = true := by
    rw [hchild.kind.compatible]
    exact hparent.kind.compatible hcompatible
  refine ⟨_, MultiUnifier.mem_toList.2 ⟨_, mem_unify_rule_iff_matching.2
    ⟨hcompatible', m'.widen hchild.kind.players.subperm, rfl⟩, rfl⟩, ?_⟩
  apply Substitution.containsAll_iff.2
  intro pair hpair
  rw [Substitution.mem_ofPairs, List.mem_append, RolePlayer.Matching.pairs_widen] at hpair
  rw [Substitution.mem_ofPairs, List.mem_append]
  exact hpair.imp (fun h => fixedPairs_subset hchild hparent h) (fun h => hpairs.subset h)

/-- The child gets a player in front and one behind, the parent asks for one player less, for the other
in any role and for a relation of any type. -/
theorem unify_rule_monotone_friendship :
    let friend : Option Label := some ⟨"friend"⟩
    let child : Atom := ⟨.named "r", .about (.named "r"), ⟨0⟩,
      .relation (some (.generated 0)) (some ⟨"friendship"⟩)
        [⟨friend, .named "x"⟩, ⟨friend, .named "y"⟩]⟩
    let child' : Atom := ⟨.named "r", .about (.named "r"), ⟨0⟩,
      .relation (some (.generated 0)) (some ⟨"friendship"⟩)
        [⟨none, .named "z"⟩, ⟨friend, .named "x"⟩, ⟨friend, .named "y"⟩, ⟨friend, .named "x"⟩]⟩
    let parent : Atom := ⟨.named "s", .about (.named "s"), ⟨1⟩,
      .relation (some (.named "t")) (some ⟨"friendship"⟩)
        [⟨friend, .named "a"⟩, ⟨friend, .named "b"⟩]⟩
    let parent' : Atom := ⟨.named "s", .about (.named "s"), ⟨1⟩,
      .relation (some (.named "t")) none [⟨none, .named "b"⟩]⟩
    let u : Unifier := .ofPairs [(.generated 0, .named "t"), (.named "r", .named "s"),
      (.named "x", .named "b"), (.named "y", .named "a")]
    child'.Extends child ∧ parent'.Generalizes parent ∧ u ∈ (child.unify parent .rule).toList ∧
      ∃ u' ∈ (child'.unify parent' .rule).toList, u.containsAll u' = true := by
  intro friend child child' parent parent' u
  have hchild : child'.Extends child :=
    ⟨rfl, .relation ((List.sublist_append_left [_, _] [_]).cons _)⟩
  have hparent : parent'.Generalizes parent :=
    ⟨rfl, .relation (.dropped _) (.cons_right (.cons ⟨.dropped _, rfl⟩ .nil))⟩
  have hu : u ∈ (child.unify parent .rule).toList := List.contains_iff_mem.1 (by cbv)
  exact ⟨hchild, hparent, hu, unify_rule_monotone hchild hparent u hu⟩

end Atom

end GraphQuery
