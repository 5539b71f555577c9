import GraphQuery.Proofs.Atom.Rename
import GraphQuery.Proofs.Collection.Lists
import GraphQuery.Proofs.Traversal.Meaning

/-!
# Constraints with other variables

A constraint can have its variables replaced, which is the same as giving them other concepts, and
an edge that leads to a type can be made to lead to a related one.
-/

namespace GraphQuery

variable {U : Type*} {f g : Variable → Variable} {E : Variable → Variable → Prop}

def Edge.rename (f : Variable → Variable) : Edge → Edge
  | isa member type => isa (f member) (f type)
  | sub lower upper direct => sub (f lower) (f upper) direct
  | has owner owned => has (f owner) (f owned)
  | role relation edge played player => role (f relation) (f edge) played (f player)

def Fragment.rename (f : Variable → Variable) : Fragment → Fragment
  | edge e direction => edge (e.rename f) direction
  | label var l => label (f var) l
  | id var number => id (f var) number
  | value var predicate => value (f var) (predicate.rename f)
  | dataType var type => dataType (f var) type
  | neq var other => neq (f var) (f other)

def FragmentSet.rename (f : Variable → Variable) (s : FragmentSet) : FragmentSet :=
  { s with fragments := s.fragments.map (·.rename f) }

theorem Edge.rename_congr {e : Edge} (hsource : f e.source = g e.source)
    (htarget : f e.target = g e.target) (hown : ∀ v ∈ e.own?, f v = g v) :
    e.rename f = e.rename g := by
  cases e with
  | isa member type => exact congrArg₂ isa hsource htarget
  | sub lower upper direct => exact congrArg₂ (sub · · direct) hsource htarget
  | has owner owned => exact congrArg₂ has hsource htarget
  | role relation edge played player =>
    have hedge : f edge = g edge := hown edge rfl
    rw [rename, rename, hedge]
    exact congrArg₂ (role · _ played ·) hsource htarget

theorem Fragment.rename_congr {s : Fragment} (h : ∀ v ∈ s.vars, f v = g v) :
    s.rename f = s.rename g := by
  cases s with
  | edge e direction =>
    apply congrArg (edge · direction)
    have hown : ∀ v ∈ e.own?, f v = g v := by
      intro v hv
      exact h v (List.mem_cons_of_mem _ (List.mem_append_left _ (Option.mem_toList.2 hv)))
    cases direction with
    | forward =>
      exact Edge.rename_congr (h _ (by simp [vars, start])) (h _ (by simp [vars, finish?])) hown
    | backward =>
      exact Edge.rename_congr (h _ (by simp [vars, finish?])) (h _ (by simp [vars, start])) hown
  | label var l => exact congrArg (label · l) (h var List.mem_cons_self)
  | id var number => exact congrArg (id · number) (h var List.mem_cons_self)
  | value var predicate =>
    refine congrArg₂ value (h var List.mem_cons_self) (ValuePredicate.rename_congr ?_)
    intro v hv
    exact h v (List.mem_cons_of_mem _ (List.mem_append_left _ (Option.mem_toList.2 hv)))
  | dataType var type => exact congrArg (dataType · type) (h var List.mem_cons_self)
  | neq var other =>
    exact congrArg₂ neq (h var List.mem_cons_self) (h other (by simp [vars, others]))

theorem FragmentSet.rename_congr {s : FragmentSet} (h : ∀ v ∈ s.vars, f v = g v) :
    s.rename f = s.rename g := by
  apply congrArg (FragmentSet.mk s.property)
  apply List.map_congr_left
  intro step hstep
  apply Fragment.rename_congr
  intro v hv
  exact h v (List.mem_eraseDups.2 (List.mem_flatMap.2 ⟨step, hstep, hv⟩))

/-- A renamed predicate admits what the predicate does when variables have the concepts of their
images. -/
theorem Graph.admits_rename (graph : Graph U) (predicate : ValuePredicate) (a : Variable → U)
    (concept : U) :
    graph.admits (predicate.rename f) a concept ↔ graph.admits predicate (a ∘ f) concept := by
  obtain ⟨comparator, operand⟩ := predicate
  cases operand <;> rfl

theorem Fragment.holds_rename (graph : Graph U) (s : Fragment) (a : Variable → U) :
    (s.rename f).Holds graph a ↔ s.Holds graph (a ∘ f) := by
  cases s with
  | edge e direction => cases e <;> rfl
  | value var predicate => exact graph.admits_rename predicate a (a (f var))
  | _ => rfl

theorem FragmentSet.holds_rename (graph : Graph U) (s : FragmentSet) (a : Variable → U) :
    (s.rename f).Holds graph a ↔ s.Holds graph (a ∘ f) := by
  simp only [Holds, rename, List.mem_map, exists_exists_and_eq_and, Fragment.holds_rename]

/-- The same edge, or one to a type that leads to a related type instead. -/
inductive Edge.RetypedTo (E : Variable → Variable → Prop) : Edge → Edge → Prop where
  | refl (e : Edge) : RetypedTo E e e
  | isa {member v w : Variable} (h : E v w) : RetypedTo E (isa member v) (isa member w)
  | sub {lower v w : Variable} {direct : Bool} (h : E v w) :
    RetypedTo E (sub lower v direct) (sub lower w direct)

inductive Fragment.RetypedTo (E : Variable → Variable → Prop) : Fragment → Fragment → Prop where
  | refl (s : Fragment) : RetypedTo E s s
  | edge {e e' : Edge} {direction : Direction} (h : e.RetypedTo E e') :
    RetypedTo E (edge e direction) (edge e' direction)

/-- The same steps, except that those to a type may lead to a related type instead. -/
def FragmentSet.RetypedTo (E : Variable → Variable → Prop) (s t : FragmentSet) : Prop :=
  s.property = t.property ∧ List.Forall₂ (Fragment.RetypedTo E) s.fragments t.fragments

namespace FragmentSet

theorem RetypedTo.refl (s : FragmentSet) : s.RetypedTo E s :=
  ⟨rfl, List.forall₂_same.2 fun _ _ => .refl _⟩

theorem RetypedTo.bothWays {kind : PropertyKind} {e e' : Edge} (h : e.RetypedTo E e') :
    (bothWays kind e).RetypedTo E (bothWays kind e') :=
  ⟨rfl, .cons (.edge h) (.cons (.edge h) .nil)⟩

/-- Types that are the same concept can be put for each other. -/
theorem RetypedTo.holds {s t : FragmentSet} (h : s.RetypedTo E t) {graph : Graph U}
    {a : Variable → U} (hE : ∀ v w, E v w → a v = a w) (ht : t.Holds graph a) :
    s.Holds graph a := by
  obtain ⟨step', hstep', hholds⟩ := ht
  obtain ⟨step, hstep, hsteps⟩ := exists_of_forall₂ h.2 hstep'
  refine ⟨step, hstep, ?_⟩
  cases hsteps with
  | refl => exact hholds
  | edge he =>
    cases he with
    | refl => exact hholds
    | @isa member v w hvw =>
      change graph.isa (a member) (a v)
      rw [hE v w hvw]
      exact hholds
    | @sub lower v w direct hvw =>
      change graph.below direct (a lower) (a v)
      rw [hE v w hvw]
      exact hholds

theorem RetypedTo.eq {s t : FragmentSet} (h : s.RetypedTo Eq t) : s = t := by
  obtain ⟨kind, steps⟩ := s
  obtain ⟨kind', steps'⟩ := t
  obtain ⟨rfl, hsteps⟩ := h
  have heq : List.Forall₂ Eq steps steps' := by
    apply hsteps.imp
    intro step step' hstep
    cases hstep with
    | refl => rfl
    | edge h =>
      cases h with
      | refl => rfl
      | isa h => rw [h]
      | sub h => rw [h]
  rw [List.forall₂_eq_eq_eq] at heq
  exact congrArg (mk kind) heq

end FragmentSet

end GraphQuery
