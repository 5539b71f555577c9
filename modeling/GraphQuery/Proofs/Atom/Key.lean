import GraphQuery.Proofs.Atom.Correspondence
import GraphQuery.Proofs.Collection.Lists

/-!
# Keys and correspondence

Two keys are equal when what they are keys of corresponds, variables to variables of the same
position and players to players with the same signature. The signature of a list of players depends
neither on their order nor on the names of the variables.
-/

namespace GraphQuery

variable {equivalence : Equivalence} {f : Variable → Variable} {p q : Variable → Nat}

namespace Equivalence

def ofOperand : Equivalence → OperandKey → OperandKey
  | alpha, key => key
  | structural, key => key.withoutConstant

def ofPredicate (equivalence : Equivalence) (key : PredicateKey) : PredicateKey :=
  ⟨key.comparator, equivalence.ofOperand key.operand⟩

def ofIdentity : Equivalence → IdentityKey → IdentityKey
  | alpha, key => key
  | structural, key => key.withoutConstant

def ofKey (equivalence : Equivalence) : AtomKey → AtomKey
  | .resource l n predicate => .resource l n (predicate.map equivalence.ofPredicate)
  | .value predicate => .value (equivalence.ofPredicate predicate)
  | .identity i => .identity (equivalence.ofIdentity i)
  | key => key

theorem alpha_ofKey (key : AtomKey) : alpha.ofKey key = key := by
  have hid : alpha.ofPredicate = id := rfl
  cases key with
  | resource l n predicate => rw [ofKey, hid, Option.map_id, id]
  | _ => rfl

theorem structural_ofKey (key : AtomKey) : structural.ofKey key = key.withoutConstants := by
  cases key <;> rfl

theorem key_eq_ofKey (a : Atom) : equivalence.key a = equivalence.ofKey a.alphaKey := by
  cases equivalence with
  | alpha => rw [alpha_ofKey, key]
  | structural => rw [structural_ofKey, key, Atom.structuralKey]

end Equivalence

namespace AtomKind

theorem typeKey_eq_iff {a b : TypeRef} :
    typeKey a.label (p a.var) = typeKey b.label (q b.var) ↔
      a.Corresponds (fun v w => p v = q w) b := by
  rw [TypeRef.Corresponds]
  cases a.label <;> cases b.label <;> simp [typeKey]

theorem operandKey_eq_iff {a b : Operand} :
    equivalence.ofOperand (operandKey p a) = equivalence.ofOperand (operandKey q b) ↔
      a.Corresponds equivalence (fun v w => p v = q w) b := by
  constructor
  · intro h
    cases a with
    | constant c =>
      cases b with
      | constant d =>
        apply Operand.Corresponds.constant
        rintro rfl
        exact OperandKey.constant.inj h
      | var w => cases equivalence <;> cases h
    | var v =>
      cases b with
      | constant d => cases equivalence <;> cases h
      | var w =>
        apply Operand.Corresponds.var
        cases equivalence <;> exact OperandKey.position.inj h
  · intro h
    cases h with
    | constant h =>
      cases equivalence with
      | alpha =>
        rw [h rfl]
        rfl
      | structural => rfl
    | var h => rw [operandKey, operandKey, h]

theorem predicateKey_eq_iff {a b : ValuePredicate} :
    equivalence.ofPredicate (predicateKey p a) = equivalence.ofPredicate (predicateKey q b) ↔
      a.Corresponds equivalence (fun v w => p v = q w) b := by
  rw [Equivalence.ofPredicate, Equivalence.ofPredicate, PredicateKey.mk.injEq]
  exact and_congr Iff.rfl operandKey_eq_iff

theorem identityKey_eq_iff {a b : Identity} :
    equivalence.ofIdentity (identityKey a) = equivalence.ofIdentity (identityKey b) ↔
      a.Corresponds equivalence b := by
  constructor
  · intro h
    cases a with
    | concept i =>
      cases b with
      | concept j =>
        apply Identity.Corresponds.concept
        rintro rfl
        exact IdentityKey.concept.inj h
      | type l => cases equivalence <;> cases h
    | type l =>
      cases b with
      | concept j => cases equivalence <;> cases h
      | type m => cases equivalence <;> cases h <;> exact .type
  · intro h
    cases h with
    | concept h =>
      cases equivalence with
      | alpha => rw [h rfl]
      | structural => rfl
    | type => rfl

theorem map_eq_map_iff {α κ : Type} {r : α → α → Prop} {k l : α → κ}
    (h : ∀ a b, k a = l b ↔ r a b) {o o' : Option α} : o.map k = o'.map l ↔ Option.Rel r o o' := by
  cases o with
  | none => cases o' <;> simp
  | some a => cases o' <;> simp [h]

theorem predicateKeys_eq_iff {o o' : Option ValuePredicate} :
    (o.map (predicateKey p)).map equivalence.ofPredicate =
        (o'.map (predicateKey q)).map equivalence.ofPredicate ↔
      Option.Rel (ValuePredicate.Corresponds equivalence fun v w => p v = q w) o o' := by
  rw [Option.map_map, Option.map_map]
  apply map_eq_map_iff
  intro a b
  exact predicateKey_eq_iff

theorem relationTypeKey_eq_iff {v w : Option Variable} {l m : Option Label} :
    (match l with
      | some label => some (TypeKey.label label)
      | none => v.map fun v => TypeKey.position (p v)) =
    (match m with
      | some label => some (TypeKey.label label)
      | none => w.map fun w => TypeKey.position (q w)) ↔
      l = m ∧ (l = none → Option.Rel (fun v w => p v = q w) v w) := by
  cases l with
  | none =>
    cases m with
    | none =>
      have hmaps := @map_eq_map_iff _ _ (fun v w => p v = q w) (fun v => TypeKey.position (p v))
        (fun w => .position (q w)) (by simp) v w
      simpa using hmaps
    | some m => cases v <;> simp
  | some l =>
    cases m with
    | none => cases w <;> simp
    | some m => simp

/-- Kinds have equal keys under an equivalence just when they correspond. -/
theorem key_eq_iff {a b : AtomKind} :
    equivalence.ofKey (a.key p) = equivalence.ofKey (b.key q) ↔
      a.Corresponds equivalence (fun v w => p v = q w)
        (fun as bs => RolePlayer.signature as = RolePlayer.signature bs) b := by
  constructor
  · intro h
    cases a with
    | isa type direct =>
      cases b with
      | isa type' direct' =>
        obtain ⟨htype, rfl⟩ := AtomKey.isa.inj h
        exact .isa (typeKey_eq_iff.1 htype)
      | _ => cases h
    | sub superType direct =>
      cases b with
      | sub superType' direct' =>
        obtain ⟨htype, rfl⟩ := AtomKey.sub.inj h
        exact .sub (typeKey_eq_iff.1 htype)
      | _ => cases h
    | dataType t =>
      cases b with
      | dataType t' =>
        obtain rfl := AtomKey.dataType.inj h
        exact .dataType
      | _ => cases h
    | resource l v o =>
      cases b with
      | resource l' w o' =>
        obtain ⟨rfl, howned, hpredicate⟩ := AtomKey.resource.inj h
        exact .resource howned (predicateKeys_eq_iff.1 hpredicate)
      | _ => cases h
    | relation v l as =>
      cases b with
      | relation w l' bs =>
        obtain ⟨htype, hplayers⟩ := AtomKey.relation.inj h
        obtain ⟨rfl, hvars⟩ := relationTypeKey_eq_iff.1 htype
        exact .relation hvars hplayers
      | _ => cases h
    | value o =>
      cases b with
      | value o' => exact .value (predicateKey_eq_iff.1 (AtomKey.value.inj h))
      | _ => cases h
    | identity i =>
      cases b with
      | identity j => exact .identity (identityKey_eq_iff.1 (AtomKey.identity.inj h))
      | _ => cases h
    | neq v =>
      cases b with
      | neq w => exact .neq (AtomKey.neq.inj h)
      | _ => cases h
  · intro h
    cases h with
    | isa h => rw [key, key, typeKey_eq_iff.2 h]
    | sub h => rw [key, key, typeKey_eq_iff.2 h]
    | dataType => rfl
    | resource howned hpredicate =>
      rw [key, key, Equivalence.ofKey, Equivalence.ofKey, howned,
        predicateKeys_eq_iff.2 hpredicate]
    | relation htype hplayers =>
      exact congrArg₂ AtomKey.relation (relationTypeKey_eq_iff.2 ⟨rfl, htype⟩) hplayers
    | value h =>
      rw [key, key, Equivalence.ofKey, Equivalence.ofKey, predicateKey_eq_iff.2 h]
    | identity h =>
      rw [key, key, Equivalence.ofKey, Equivalence.ofKey, identityKey_eq_iff.2 h]
    | neq h => rw [key, key, h]

end AtomKind

namespace RolePlayer

theorem rolesOf_map_rename (hf : Function.Injective f) (players : List RolePlayer) (v : Variable) :
    rolesOf (players.map (rename f)) (f v) = rolesOf players v := by
  have hsame : (fun rp : RolePlayer => decide (rp.player = f v)) ∘ rename f =
      fun rp => decide (rp.player = v) := by
    funext rp
    simp [rename, hf.eq_iff]
  rw [rolesOf, rolesOf, List.filter_map, hsame, List.map_map]
  rfl

theorem signature_map_rename (hf : Function.Injective f) (players : List RolePlayer) :
    signature (players.map (rename f)) = signature players := by
  have hplayers : (players.map (rename f)).map (·.player) = (players.map (·.player)).map f := by
    rw [List.map_map, List.map_map]
    rfl
  rw [signature, signature, hplayers, eraseDups_map hf, List.map_map]
  congr 1
  apply List.map_congr_left
  intro v _
  exact rolesOf_map_rename hf players v

theorem rolesOf_eq_of_perm {as bs : List RolePlayer} (h : as.Perm bs) : rolesOf as = rolesOf bs := by
  funext v
  apply mergeSort_compare_eq_of_perm
  exact (h.filter _).map _

theorem signature_eq_of_perm {as bs : List RolePlayer} (h : as.Perm bs) :
    signature as = signature bs := by
  rw [signature, signature, rolesOf_eq_of_perm h]
  apply mergeSort_compare_eq_of_perm
  exact (perm_eraseDups (h.map _)).map _

theorem RenameTo.signature_eq {as bs : List RolePlayer} (h : RenameTo f as bs)
    (hf : Function.Injective f) : signature as = signature bs := by
  rw [← signature_map_rename hf]
  exact signature_eq_of_perm h

end RolePlayer

theorem eq_map_of_rel {o o' : Option Variable} (h : Option.Rel (fun v w => f v = w) o o') :
    o' = o.map f := by
  cases h with
  | none => rfl
  | some h => rw [Option.map_some, h]

theorem Operand.Corresponds.var?_eq_map {a b : Operand}
    (h : a.Corresponds equivalence (fun v w => f v = w) b) : b.var? = a.var?.map f := by
  cases h with
  | constant _ => rfl
  | var h => rw [var?, var?, Option.map_some, h]

theorem TypeRef.Corresponds.numbered_eq_map {a b : TypeRef}
    (h : a.Corresponds (fun v w => f v = w) b) :
    (if b.label.isSome then [] else [b.var]) = (if a.label.isSome then [] else [a.var]).map f := by
  rw [← h.1]
  cases hlabel : a.label with
  | none => simp [h.2 hlabel]
  | some l => simp

theorem AtomKind.Corresponds.numbered_eq_map {S : List RolePlayer → List RolePlayer → Prop}
    {a b : AtomKind} (h : a.Corresponds equivalence (fun v w => f v = w) S b) :
    b.numbered = a.numbered.map f := by
  cases h with
  | isa h => exact h.numbered_eq_map
  | sub h => exact h.numbered_eq_map
  | dataType => rfl
  | resource howned hpredicate =>
    rw [numbered, numbered, ← howned, List.map_cons]
    cases hpredicate with
    | none => rfl
    | some h => rw [Option.bind_some, Option.bind_some, h.2.var?_eq_map, Option.toList_map]
  | @relation v w l as bs htype hplayers =>
    cases l with
    | none => simp [numbered, eq_map_of_rel (htype rfl), Option.toList_map]
    | some l => rfl
  | value h => rw [numbered, numbered, h.2.var?_eq_map, Option.toList_map]
  | identity h => rfl
  | neq h => rw [numbered, numbered, ← h, List.map_singleton]

namespace Atom

theorem mem_slots {a : Atom} {v : Variable} : v ∈ a.slots ↔ v = a.var ∨ v ∈ a.kind.numbered := by
  rw [slots, List.mem_eraseDups, List.mem_cons]

theorem RenamesTo.slots_eq_map {a b : Atom} (h : a.RenamesTo equivalence f b)
    (hf : Function.Injective f) : b.slots = a.slots.map f := by
  rw [slots, slots, ← eraseDups_map hf, List.map_cons, h.1, h.2.numbered_eq_map]

theorem equivalent_iff {a b : Atom} :
    a.equivalent equivalence b = true ↔
      a.kind.Corresponds equivalence (fun v w => a.slots.idxOf v = b.slots.idxOf w)
        (fun as bs => RolePlayer.signature as = RolePlayer.signature bs) b.kind := by
  rw [Atom.equivalent, decide_eq_true_iff, Equivalence.key_eq_ofKey, Equivalence.key_eq_ofKey]
  exact AtomKind.key_eq_iff

/-- Renaming variables one to one does not change the key. -/
theorem RenamesTo.equivalent {a b : Atom} (h : a.RenamesTo equivalence f b)
    (hf : Function.Injective f) : a.equivalent equivalence b = true := by
  apply equivalent_iff.2
  apply h.2.imp
  · intro v _ w _ hvw
    rw [h.slots_eq_map hf, ← hvw, idxOf_map hf]
  · intro hplayers
    exact hplayers.signature_eq hf

/-- Atoms with equal keys are the same up to the renaming of one's slots to the other's and of one's
players to the other's. -/
theorem renamesTo_of_equivalent {a b : Atom} (h : a.equivalent equivalence b = true)
    (hslots : ∀ pair ∈ a.slots.zip b.slots, f pair.1 = pair.2)
    (hplayers : RolePlayer.RenameTo f a.kind.players b.kind.players) :
    a.RenamesTo equivalence f b := by
  have hsame {v w : Variable} (hv : v ∈ a.slots) (hw : w ∈ b.slots)
      (hvw : a.slots.idxOf v = b.slots.idxOf w) : f v = w :=
    hslots _ (mem_zip_of_idxOf_eq hv hw hvw)
  constructor
  · apply hsame (mem_slots.2 (.inl rfl)) (mem_slots.2 (.inl rfl))
    rw [slots, slots, List.eraseDups_cons, List.eraseDups_cons, List.idxOf_cons_self,
      List.idxOf_cons_self]
  · apply (equivalent_iff.1 h).imp
    · intro v hv w hw
      exact hsame (mem_slots.2 (.inr hv)) (mem_slots.2 (.inr hw))
    · intro _
      exact hplayers

theorem RenamesTo.of_alpha {a b : Atom} (h : a.RenamesTo .alpha f b)
    (hf : Function.Injective f) : a.RenamesTo equivalence f b := by
  cases equivalence with
  | alpha => exact h
  | structural =>
    have hkeys : a.alphaKey = b.alphaKey := of_decide_eq_true (h.equivalent hf)
    apply renamesTo_of_equivalent
    · exact decide_eq_true (congrArg AtomKey.withoutConstants hkeys)
    · intro pair hpair
      rw [h.slots_eq_map hf] at hpair
      exact eq_of_mem_zip_map hpair
    · exact h.renameTo_players

end Atom

end GraphQuery
