import GraphQuery.Proofs.Pattern.Parts
import GraphQuery.Proofs.Traversal.Demands
import GraphQuery.Proofs.Unifier.Unification

/-!
# What atoms demand

A statement is compiled twice, into constraints and into atoms. Each property has an atom of its own,
which is the one that it gives unless it is the type of a relation, or a relation that takes its type
in. The constraints of the statement are what these atoms demand.
-/

namespace GraphQuery

variable {f : Variable → Variable} {E : Variable → Variable → Prop}

namespace AtomKind

/-- What an atom of this kind demands of its variable, save the type that a relation has taken in. -/
def demands (var : Variable) : AtomKind → List Demand
  | isa type direct => [.ofIsa var type.var direct]
  | sub superType direct => [.plain (.bothWays .sub (.sub var superType.var direct))]
  | dataType type => [.plain ⟨.dataType, [.dataType var type]⟩]
  | resource _ owned _ => [.plain (.bothWays .has (.has var owned))]
  | relation _ _ players => players.map fun rp => .role var rp.role rp.player
  | value predicate => [.plain ⟨.value, [.value var predicate]⟩]
  | identity (.type l) => [.plain ⟨.label, [.label var l]⟩]
  | identity (.concept id) => [.plain ⟨.id, [.id var id]⟩]
  | neq other => [.plain ⟨.neq, [.neq var other, .neq other var]⟩]

/-- Kinds that correspond under a renaming make demands that do, except that the variables of types
may be related by something else. -/
theorem Corresponds.pairedUp_demands {k l : AtomKind}
    (h : k.Corresponds .alpha (fun v w => f v = w) (RolePlayer.RenameTo f) l)
    (htype : Option.Rel (fun v w => E (f v) w) k.typeVar? l.typeVar?) (var : Variable) :
    PairedUp (Demand.RetypedTo E) ((k.demands var).map (Demand.rename f)) (l.demands (f var)) := by
  cases h with
  | isa _ =>
    cases htype with
    | some htype =>
      rw [demands, List.map_singleton, Demand.rename_ofIsa]
      exact .singleton (.ofIsa _ htype)
  | sub _ =>
    cases htype with
    | some htype => exact .singleton (.plain (.bothWays (.sub htype)))
  | dataType => exact .singleton (.plain (.refl _))
  | resource howned _ =>
    obtain rfl := howned
    exact .singleton (.plain (.refl _))
  | relation _ hplayers =>
    rw [demands, demands, List.map_map, PairedUp.map_iff]
    apply (PairedUp.map_left_iff.1 (PairedUp.eq_iff.2 hplayers)).mono
    rintro rp _ _ _ rfl
    exact .role _ _ _
  | value h =>
    rw [← h.rename_eq]
    exact .singleton (.plain (.refl _))
  | identity h =>
    cases h with
    | concept h =>
      obtain rfl := h rfl
      exact .singleton (.plain (.refl _))
    | type => exact .singleton (.plain (.refl _))
  | neq h =>
    obtain rfl := h
    exact .singleton (.plain (.refl _))

end AtomKind

namespace Atom

def demands (a : Atom) : List Demand := a.kind.demands a.var

/-- The atom becomes another one when its variables are renamed, up to the variable of the type. -/
def RetypesTo (f : Variable → Variable) (E : Variable → Variable → Prop) (a b : Atom) : Prop :=
  a.RenamesTo .alpha f b ∧ Option.Rel (fun v w => E (f v) w) a.kind.typeVar? b.kind.typeVar?

theorem RetypesTo.pairedUp_demands {a b : Atom} (h : a.RetypesTo f E b) :
    PairedUp (Demand.RetypedTo E) (a.demands.map (Demand.rename f)) b.demands := by
  rw [demands, demands, ← h.1.1]
  exact h.1.2.pairedUp_demands h.2 _

theorem pairedUp_demands {as bs : List Atom} (h : PairedUp (RetypesTo f E) as bs) :
    PairedUp (Demand.RetypedTo E) ((as.flatMap demands).map (Demand.rename f))
      (bs.flatMap demands) := by
  rw [List.map_flatMap]
  exact (h.mono fun _ _ _ _ hab => hab.pairedUp_demands).flatMap

end Atom

/-- The atom of a property by itself. -/
def Property.ownAtom (p : Property) (var : Variable) : Atom :=
  ⟨var, ⟨var, .positive, [p]⟩, default, p.atomKind (.about var)⟩

/-- The atoms of the properties of a statement, and of those that it carries, each by itself. -/
def Statement.ownAtoms (s : Statement) : List Atom :=
  s.withInner.flatMap fun t => t.properties.map (·.ownAtom t.var)

/-- What a statement and those that it carries demand. -/
def Statement.demands (s : Statement) : List Demand := s.ownAtoms.flatMap (·.demands)

theorem Property.fragments_eq (p : Property) (var : Variable) :
    p.fragments var = List.flatten <$> (p.ownAtom var).demands.mapM Demand.fragments := by
  cases p with
  | isa type direct => cases direct <;> rfl
  | relation players =>
    have hplayers : ((relation players).ownAtom var).demands =
        players.map fun rp => .role var rp.role rp.player := rfl
    have hplayer (rp : RolePlayer) : (Demand.role var rp.role rp.player).fragments =
        ([·]) <$> rp.fragment var := rfl
    rw [hplayers, List.mapM_map]
    change _ = List.flatten <$> players.mapM fun rp => (Demand.role var rp.role rp.player).fragments
    simp only [hplayer]
    exact (flatten_mapM_singleton _ players).symm
  | _ => rfl

/-- The constraints of a statement are what its demands are met with. -/
theorem Statement.fragments_eq (s : Statement) :
    s.fragments = List.flatten <$> s.demands.mapM Demand.fragments := by
  have hown (t : Statement) : t.ownFragments =
      List.flatten <$> ((t.properties.map (·.ownAtom t.var)).flatMap (·.demands)).mapM
        Demand.fragments := by
    rw [List.flatMap_map, flatten_mapM_flatMap]
    simp only [← Property.fragments_eq]
    rfl
  rw [demands, ownAtoms, List.flatMap_assoc, flatten_mapM_flatMap]
  simp only [← hown]
  rfl

theorem Property.countP_demands (p : Property) (var : Variable) :
    (p.ownAtom var).demands.countP Demand.draws = p.additions := by
  cases p with
  | isa type direct => cases direct <;> rfl
  | relation players =>
    have hplayers : ((relation players).ownAtom var).demands =
        players.map fun rp => .role var rp.role rp.player := rfl
    rw [hplayers, List.countP_map]
    exact List.countP_eq_length.2 fun _ _ => rfl
  | _ => rfl

/-- A variable is added for each demand that leaves something unnamed. -/
theorem Statement.countP_demands (s : Statement) : s.demands.countP Demand.draws = s.additions := by
  have hown (t : Statement) :
      ((t.properties.map (·.ownAtom t.var)).flatMap (·.demands)).countP Demand.draws =
        t.ownAdditions := by
    rw [List.flatMap_map, List.countP_flatMap, ownAdditions]
    simp only [Function.comp_def, Property.countP_demands]
  rw [demands, ownAtoms, List.flatMap_assoc, List.countP_flatMap, additions]
  simp only [Function.comp_def, hown]

end GraphQuery
