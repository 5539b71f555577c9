import GraphQuery.Proofs.Atom.Correspondence

/-!
# Atoms with other variables

Every variable of an atom can be replaced, that of a labelled type as well. What results is compared
up to the order of players, and it depends only on what becomes of the variables that are mentioned.
-/

namespace GraphQuery

variable {f g : Variable → Variable}

def TypeRef.rename (f : Variable → Variable) (type : TypeRef) : TypeRef :=
  { type with var := f type.var }

namespace Operand

def rename (f : Variable → Variable) : Operand → Operand
  | constant value => constant value
  | var v => var (f v)

theorem var?_rename (o : Operand) : (o.rename f).var? = o.var?.map f := by
  cases o <;> rfl

theorem rename_rename (o : Operand) : (o.rename f).rename g = o.rename (g ∘ f) := by
  cases o <;> rfl

theorem rename_id (o : Operand) : o.rename id = o := by
  cases o <;> rfl

theorem rename_congr {o : Operand} (h : ∀ v ∈ o.var?, f v = g v) : o.rename f = o.rename g := by
  cases o with
  | constant value => rfl
  | var v => exact congrArg var (h v rfl)

theorem corresponds_rename (o : Operand) :
    o.Corresponds .alpha (fun v w => f v = w) (o.rename f) := by
  cases o with
  | constant value => exact .constant fun _ => rfl
  | var v => exact .var rfl

end Operand

namespace ValuePredicate

def rename (f : Variable → Variable) (p : ValuePredicate) : ValuePredicate :=
  { p with operand := p.operand.rename f }

theorem rename_rename (p : ValuePredicate) : (p.rename f).rename g = p.rename (g ∘ f) :=
  congrArg (mk p.comparator) p.operand.rename_rename

theorem rename_id (p : ValuePredicate) : p.rename id = p :=
  congrArg (mk p.comparator) p.operand.rename_id

theorem rename_congr {p : ValuePredicate} (h : ∀ v ∈ p.operand.var?, f v = g v) :
    p.rename f = p.rename g :=
  congrArg (mk p.comparator) (Operand.rename_congr h)

theorem Corresponds.rename_eq {p q : ValuePredicate}
    (h : p.Corresponds .alpha (fun v w => f v = w) q) : p.rename f = q := by
  obtain ⟨comparator, a⟩ := p
  obtain ⟨comparator', b⟩ := q
  obtain ⟨rfl, hab⟩ := h
  cases hab with
  | constant hconstant =>
    obtain rfl := hconstant rfl
    rfl
  | var h => exact congrArg (fun w => mk comparator (.var w)) h

end ValuePredicate

namespace AtomKind

/-- The kind with every variable replaced, that of a labelled type as well. -/
def rename (f : Variable → Variable) : AtomKind → AtomKind
  | isa type direct => isa (type.rename f) direct
  | sub superType direct => sub (superType.rename f) direct
  | dataType type => dataType type
  | resource attributeType owned predicate =>
    resource attributeType (f owned) (predicate.map (·.rename f))
  | relation typeVar typeLabel players =>
    relation (typeVar.map f) typeLabel (players.map (·.rename f))
  | value predicate => value (predicate.rename f)
  | identity i => identity i
  | neq other => neq (f other)

theorem mentions_rename (k : AtomKind) : (k.rename f).mentions = k.mentions.map f := by
  cases k with
  | resource l owned predicate =>
    cases predicate with
    | none => rfl
    | some p =>
      simp only [rename, mentions, Option.map_some, Option.bind_some, ValuePredicate.rename,
        Operand.var?_rename, Option.toList_map, List.map_cons]
  | relation typeVar typeLabel players =>
    simp only [rename, mentions, List.map_append, Option.toList_map, List.map_map]
    rfl
  | value p =>
    simp only [rename, mentions, ValuePredicate.rename, Operand.var?_rename, Option.toList_map]
  | _ => rfl

theorem rename_rename (k : AtomKind) : (k.rename f).rename g = k.rename (g ∘ f) := by
  cases k with
  | resource l owned predicate => cases predicate <;> simp [rename, ValuePredicate.rename_rename]
  | relation typeVar typeLabel players => simp [rename, RolePlayer.rename_rename]
  | value p => exact congrArg value p.rename_rename
  | _ => rfl

theorem rename_id (k : AtomKind) : k.rename id = k := by
  cases k with
  | resource l owned predicate => cases predicate <;> simp [rename, ValuePredicate.rename_id]
  | relation typeVar typeLabel players =>
    have hplayer : RolePlayer.rename id = id := rfl
    simp [rename, hplayer]
  | value p => exact congrArg value p.rename_id
  | _ => rfl

theorem rename_congr {k : AtomKind} (h : ∀ v ∈ k.mentions, f v = g v) :
    k.rename f = k.rename g := by
  cases k with
  | isa type direct => simp [rename, TypeRef.rename, h type.var List.mem_cons_self]
  | sub superType direct => simp [rename, TypeRef.rename, h superType.var List.mem_cons_self]
  | dataType t => rfl
  | resource l owned predicate =>
    rw [rename, rename, h owned List.mem_cons_self]
    congr 1
    apply Option.map_congr
    rintro p rfl
    apply ValuePredicate.rename_congr
    intro v hv
    exact h v (List.mem_cons_of_mem _ (by simpa using hv))
  | relation typeVar typeLabel players =>
    rw [rename, rename]
    congr 1
    · apply Option.map_congr
      rintro v rfl
      exact h v List.mem_cons_self
    · apply List.map_congr_left
      intro rp hrp
      rw [RolePlayer.rename, RolePlayer.rename,
        h rp.player (List.mem_append_right _ (List.mem_map_of_mem hrp))]
  | value p =>
    apply congrArg value
    apply ValuePredicate.rename_congr
    intro v hv
    exact h v (by simpa [mentions] using hv)
  | identity i => rfl
  | neq other => rw [rename, rename, h other List.mem_cons_self]

theorem rename_eq_self {k : AtomKind} (h : ∀ v ∈ k.mentions, f v = v) : k.rename f = k :=
  (rename_congr h).trans k.rename_id

/-- Kinds are equal but for the order of players. -/
inductive EqUpToOrder : AtomKind → AtomKind → Prop where
  | refl (k : AtomKind) : EqUpToOrder k k
  | relation {v : Option Variable} {l : Option Label} {as bs : List RolePlayer} (h : as.Perm bs) :
    EqUpToOrder (.relation v l as) (.relation v l bs)

theorem EqUpToOrder.symm {k l : AtomKind} (h : k.EqUpToOrder l) : l.EqUpToOrder k := by
  cases h with
  | refl => exact .refl k
  | relation h => exact .relation h.symm

theorem EqUpToOrder.rename {k l : AtomKind} (h : k.EqUpToOrder l) (f : Variable → Variable) :
    (k.rename f).EqUpToOrder (l.rename f) := by
  cases h with
  | refl => exact .refl _
  | relation h => exact .relation (h.map _)

theorem EqUpToOrder.mentions_perm {k l : AtomKind} (h : k.EqUpToOrder l) :
    k.mentions.Perm l.mentions := by
  cases h with
  | refl => exact .refl _
  | relation h => exact (h.map _).append_left _

end AtomKind

end GraphQuery
