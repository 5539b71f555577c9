import GraphQuery.Digest.Atom
import GraphQuery.Proofs.Atom.Family
import GraphQuery.Proofs.Atom.Subsumption
import GraphQuery.Proofs.Unifier.Unification

/-!
# Names and the order of players

Keys know the variables of an atom by their positions and its players by the roles that they have.
So an atom whose variables are renamed one to one and whose players stand in another order has the
same keys, and nothing that goes by keys tells it from the atom that it was.
-/

namespace GraphQuery.Atom

variable {a b : Atom} {f : Variable → Variable}

/-- The two atoms are the same to all that goes by keys. -/
structure SameByKey (a b : Atom) : Prop where
  alphaKey : a.alphaKey = b.alphaKey
  structuralKey : a.structuralKey = b.structuralKey
  /-- They feed the same words to a hasher, whichever equivalence they are compared by. -/
  feeds : ∀ (equivalence : Equivalence) (digest : Digest),
    feed digest (equivalence.key a) = feed digest (equivalence.key b)
  family : ∀ F : AtomFamilies, F.family a = F.family b
  isNew : ∀ F : AtomFamilies, F.isNew a = F.isNew b
  /-- Either joins the same family when it is added. -/
  joins : ∀ (F : AtomFamilies) (c : Atom),
    (F.insert a).family c =
        (if a.equivalent F.equivalence c then F.family c ++ [a] else F.family c) ∧
      (F.insert b).family c =
        (if a.equivalent F.equivalence c then F.family c ++ [b] else F.family c)
  subsumes : ∀ c : Atom, a.subsumes c = b.subsumes c
  subsumed : ∀ c : Atom, c.subsumes a = c.subsumes b

theorem key_eq_of_alphaKey_eq (h : a.alphaKey = b.alphaKey) (equivalence : Equivalence) :
    equivalence.key a = equivalence.key b := by
  rw [Equivalence.key_eq_ofKey, Equivalence.key_eq_ofKey, h]

theorem SameByKey.of_alphaKey (h : a.alphaKey = b.alphaKey) : a.SameByKey b where
  alphaKey := h
  structuralKey := key_eq_of_alphaKey_eq h .structural
  feeds equivalence digest := congrArg (feed digest) (key_eq_of_alphaKey_eq h equivalence)
  family F := by rw [AtomFamilies.family, AtomFamilies.family, key_eq_of_alphaKey_eq h]
  isNew F := by rw [AtomFamilies.isNew, AtomFamilies.isNew, key_eq_of_alphaKey_eq h]
  joins F c := by
    refine ⟨F.family_insert a c, ?_⟩
    rw [F.family_insert, equivalent, equivalent, key_eq_of_alphaKey_eq h]
  subsumes _ := subsumes_congr h rfl
  subsumed _ := subsumes_congr rfl h

/-- An atom is the same to all that goes by keys when its variables are renamed one to one and its
players put in another order. -/
theorem sameByKey_of_rename (hf : ∀ v ∈ a.vars, ∀ w ∈ a.vars, f v = f w → v = w)
    (hvar : f a.var = b.var) (hkind : (a.kind.rename f).EqUpToOrder b.kind) : a.SameByKey b :=
  .of_alphaKey (equivalent_alpha_iff.1 (equivalent_of_injOn hf hvar hkind))

/-- Names are exchanged among the relation, its type and its players, one of whom plays two roles. -/
theorem sameByKey_of_rename_couple :
    let role (name : String) : Option Label := some ⟨name⟩
    let f : Variable → Variable := fun v =>
      if v = .named "r" then .generated 0 else if v = .generated 0 then .named "x"
      else if v = .named "x" then .named "t" else .named "r"
    let a : Atom := ⟨.named "r", .about (.named "r"), ⟨0⟩, .relation (some (.named "t")) none
      [⟨role "wife", .named "x"⟩, ⟨none, .generated 0⟩, ⟨role "witness", .named "x"⟩]⟩
    let b : Atom := ⟨.generated 0, .about (.named "s"), ⟨1⟩, .relation (some (.named "r")) none
      [⟨role "witness", .named "t"⟩, ⟨role "wife", .named "t"⟩, ⟨none, .named "x"⟩]⟩
    (∀ v ∈ a.vars, ∀ w ∈ a.vars, f v = f w → v = w) ∧ f a.var = b.var ∧
      (a.kind.rename f).EqUpToOrder b.kind ∧ a.SameByKey b := by
  intro role f a b
  have hf : ∀ v ∈ a.vars, ∀ w ∈ a.vars, f v = f w → v = w := by decide
  have hkind : (a.kind.rename f).EqUpToOrder b.kind := by
    apply AtomKind.EqUpToOrder.relation
    exact @List.perm_append_comm _ [_, _] [_]
  exact ⟨hf, rfl, hkind, sameByKey_of_rename hf rfl hkind⟩

end GraphQuery.Atom
