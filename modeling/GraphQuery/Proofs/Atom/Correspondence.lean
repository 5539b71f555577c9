import GraphQuery.Atom.Key
import Mathlib.Logic.Function.Basic

/-!
# Correspondence of atoms

When one atom is another with its variables renamed. What an atom says is compared part by part: a
relation tells which variables correspond and another which lists of players, so that renamings of
variables and positions in keys are compared in one way.
-/

namespace GraphQuery

variable {equivalence : Equivalence} {R R' R'' : Variable → Variable → Prop}
  {S S' S'' : List RolePlayer → List RolePlayer → Prop} {f g : Variable → Variable}

/-- Types have the same label, or none and corresponding variables. -/
def TypeRef.Corresponds (R : Variable → Variable → Prop) (a b : TypeRef) : Prop :=
  a.label = b.label ∧ (a.label = none → R a.var b.var)

/-- Constants correspond only to constants, under alpha-equivalence to themselves. -/
inductive Operand.Corresponds (equivalence : Equivalence) (R : Variable → Variable → Prop) :
    Operand → Operand → Prop where
  | constant {c d : Value} (h : equivalence = .alpha → c = d) :
    Corresponds equivalence R (.constant c) (.constant d)
  | var {v w : Variable} (h : R v w) : Corresponds equivalence R (.var v) (.var w)

def ValuePredicate.Corresponds (equivalence : Equivalence) (R : Variable → Variable → Prop)
    (p q : ValuePredicate) : Prop :=
  p.comparator = q.comparator ∧ p.operand.Corresponds equivalence R q.operand

inductive Identity.Corresponds (equivalence : Equivalence) : Identity → Identity → Prop where
  | concept {i j : ConceptId} (h : equivalence = .alpha → i = j) :
    Corresponds equivalence (.concept i) (.concept j)
  | type {l : Label} : Corresponds equivalence (.type l) (.type l)

/-- Two kinds say the same of corresponding variables, and players are compared by `S`. -/
inductive AtomKind.Corresponds (equivalence : Equivalence) (R : Variable → Variable → Prop)
    (S : List RolePlayer → List RolePlayer → Prop) : AtomKind → AtomKind → Prop where
  | isa {a b : TypeRef} {direct : Bool} (h : a.Corresponds R b) :
    Corresponds equivalence R S (.isa a direct) (.isa b direct)
  | sub {a b : TypeRef} {direct : Bool} (h : a.Corresponds R b) :
    Corresponds equivalence R S (.sub a direct) (.sub b direct)
  | dataType {t : ValueType} : Corresponds equivalence R S (.dataType t) (.dataType t)
  | resource {l : Label} {v w : Variable} {p q : Option ValuePredicate} (howned : R v w)
    (hpredicate : Option.Rel (ValuePredicate.Corresponds equivalence R) p q) :
    Corresponds equivalence R S (.resource l v p) (.resource l w q)
  | relation {v w : Option Variable} {l : Option Label} {as bs : List RolePlayer}
    (htype : l = none → Option.Rel R v w) (hplayers : S as bs) :
    Corresponds equivalence R S (.relation v l as) (.relation w l bs)
  | value {p q : ValuePredicate} (h : p.Corresponds equivalence R q) :
    Corresponds equivalence R S (.value p) (.value q)
  | identity {i j : Identity} (h : i.Corresponds equivalence j) :
    Corresponds equivalence R S (.identity i) (.identity j)
  | neq {v w : Variable} (h : R v w) : Corresponds equivalence R S (.neq v) (.neq w)

/-- The players of a relation; an atom of another kind has none. -/
def AtomKind.players : AtomKind → List RolePlayer
  | relation _ _ players => players
  | _ => []

/-- The variable of the type of an instance, of a relation or above a subtype. -/
def AtomKind.typeVar? : AtomKind → Option Variable
  | isa type _ => some type.var
  | sub superType _ => some superType.var
  | relation typeVar _ _ => typeVar
  | dataType _ | resource .. | value _ | identity _ | neq _ => none

/-- The same role, played by what becomes of the player. -/
def RolePlayer.rename (f : Variable → Variable) (rp : RolePlayer) : RolePlayer :=
  { rp with player := f rp.player }

/-- Lists have the same players up to order once those of the first are renamed. -/
def RolePlayer.RenameTo (f : Variable → Variable) (as bs : List RolePlayer) : Prop :=
  (as.map (rename f)).Perm bs

/-- The atom becomes another one, but for its source, when its variables are renamed. -/
def Atom.RenamesTo (equivalence : Equivalence) (f : Variable → Variable) (a b : Atom) : Prop :=
  f a.var = b.var ∧
    a.kind.Corresponds equivalence (fun v w => f v = w) (RolePlayer.RenameTo f) b.kind

/-- The variables whose names a renaming of the atom changes: all but those of labelled types. -/
def Atom.renamed (a : Atom) : List Variable :=
  a.var :: (a.kind.numbered ++ a.kind.players.map (·.player))

section Options

variable {α β γ : Type} {r : α → β → Prop}

theorem optionRel_refl {r : α → α → Prop} (h : ∀ a, r a a) (o : Option α) : Option.Rel r o o := by
  cases o with
  | none => exact .none
  | some a => exact .some (h a)

theorem optionRel_flip {s : β → α → Prop} {o : Option α} {o' : Option β} (h : Option.Rel r o o')
    (hrs : ∀ a b, r a b → s b a) : Option.Rel s o' o := by
  cases h with
  | none => exact .none
  | some hab => exact .some (hrs _ _ hab)

theorem optionRel_comp {s : β → γ → Prop} {t : α → γ → Prop} {o : Option α} {o' : Option β}
    {o'' : Option γ} (h : Option.Rel r o o') (k : Option.Rel s o' o'')
    (hrst : ∀ a b c, r a b → s b c → t a c) : Option.Rel t o o'' := by
  cases h with
  | none =>
    cases k
    exact .none
  | some hab =>
    cases k with
    | some hbc => exact .some (hrst _ _ _ hab hbc)

theorem optionRel_imp {s : α → β → Prop} {o : Option α} {o' : Option β} (h : Option.Rel r o o')
    (hrs : ∀ a ∈ o, ∀ b ∈ o', r a b → s a b) : Option.Rel s o o' := by
  cases h with
  | none => exact .none
  | some hab => exact .some (hrs _ rfl _ rfl hab)

end Options

theorem Operand.Corresponds.refl (hR : ∀ v, R v v) (o : Operand) :
    o.Corresponds equivalence R o := by
  cases o with
  | constant c => exact .constant fun _ => rfl
  | var v => exact .var (hR v)

theorem ValuePredicate.Corresponds.refl (hR : ∀ v, R v v) (p : ValuePredicate) :
    p.Corresponds equivalence R p :=
  ⟨rfl, .refl hR p.operand⟩

theorem Identity.Corresponds.refl (i : Identity) : i.Corresponds equivalence i := by
  cases i with
  | concept id => exact .concept fun _ => rfl
  | type l => exact .type

theorem AtomKind.Corresponds.refl (hR : ∀ v, R v v) (hS : ∀ as, S as as) (a : AtomKind) :
    a.Corresponds equivalence R S a := by
  cases a with
  | isa type direct => exact .isa ⟨rfl, fun _ => hR _⟩
  | sub superType direct => exact .sub ⟨rfl, fun _ => hR _⟩
  | dataType t => exact .dataType
  | resource l v p => exact .resource (hR v) (optionRel_refl (.refl hR) p)
  | relation v l as => exact .relation (fun _ => optionRel_refl hR v) (hS as)
  | value p => exact .value (.refl hR p)
  | identity i => exact .identity (.refl i)
  | neq v => exact .neq (hR v)

theorem TypeRef.Corresponds.flip {a b : TypeRef} (h : a.Corresponds R b)
    (hR : ∀ v w, R v w → R' w v) : b.Corresponds R' a :=
  ⟨h.1.symm, fun hnone => hR _ _ (h.2 (h.1.trans hnone))⟩

theorem Operand.Corresponds.flip {a b : Operand} (h : a.Corresponds equivalence R b)
    (hR : ∀ v w, R v w → R' w v) : b.Corresponds equivalence R' a := by
  cases h with
  | constant h => exact .constant fun halpha => (h halpha).symm
  | var h => exact .var (hR _ _ h)

theorem ValuePredicate.Corresponds.flip {p q : ValuePredicate} (h : p.Corresponds equivalence R q)
    (hR : ∀ v w, R v w → R' w v) : q.Corresponds equivalence R' p :=
  ⟨h.1.symm, h.2.flip hR⟩

theorem Identity.Corresponds.flip {i j : Identity} (h : i.Corresponds equivalence j) :
    j.Corresponds equivalence i := by
  cases h with
  | concept h => exact .concept fun halpha => (h halpha).symm
  | type => exact .type

theorem AtomKind.Corresponds.flip {a b : AtomKind} (h : a.Corresponds equivalence R S b)
    (hR : ∀ v w, R v w → R' w v) (hS : ∀ as bs, S as bs → S' bs as) :
    b.Corresponds equivalence R' S' a := by
  cases h with
  | isa h => exact .isa (h.flip hR)
  | sub h => exact .sub (h.flip hR)
  | dataType => exact .dataType
  | resource howned hpredicate =>
    exact .resource (hR _ _ howned) (optionRel_flip hpredicate fun _ _ h => h.flip hR)
  | relation htype hplayers =>
    exact .relation (fun hnone => optionRel_flip (htype hnone) hR) (hS _ _ hplayers)
  | value h => exact .value (h.flip hR)
  | identity h => exact .identity h.flip
  | neq h => exact .neq (hR _ _ h)

theorem TypeRef.Corresponds.comp {a b c : TypeRef} (h : a.Corresponds R b) (k : b.Corresponds R' c)
    (hR : ∀ u v w, R u v → R' v w → R'' u w) : a.Corresponds R'' c :=
  ⟨h.1.trans k.1, fun hnone => hR _ _ _ (h.2 hnone) (k.2 (h.1.symm.trans hnone))⟩

theorem Operand.Corresponds.comp {a b c : Operand} (h : a.Corresponds equivalence R b)
    (k : b.Corresponds equivalence R' c) (hR : ∀ u v w, R u v → R' v w → R'' u w) :
    a.Corresponds equivalence R'' c := by
  cases h with
  | constant h =>
    cases k with
    | constant k => exact .constant fun halpha => (h halpha).trans (k halpha)
  | var h =>
    cases k with
    | var k => exact .var (hR _ _ _ h k)

theorem ValuePredicate.Corresponds.comp {p q r : ValuePredicate} (h : p.Corresponds equivalence R q)
    (k : q.Corresponds equivalence R' r) (hR : ∀ u v w, R u v → R' v w → R'' u w) :
    p.Corresponds equivalence R'' r :=
  ⟨h.1.trans k.1, h.2.comp k.2 hR⟩

theorem Identity.Corresponds.trans {i j l : Identity} (h : i.Corresponds equivalence j)
    (k : j.Corresponds equivalence l) : i.Corresponds equivalence l := by
  cases h with
  | concept h =>
    cases k with
    | concept k => exact .concept fun halpha => (h halpha).trans (k halpha)
  | type => exact k

theorem AtomKind.Corresponds.comp {a b c : AtomKind} (h : a.Corresponds equivalence R S b)
    (k : b.Corresponds equivalence R' S' c) (hR : ∀ u v w, R u v → R' v w → R'' u w)
    (hS : ∀ as bs cs, S as bs → S' bs cs → S'' as cs) : a.Corresponds equivalence R'' S'' c := by
  cases h with
  | isa h =>
    cases k with
    | isa k => exact .isa (h.comp k hR)
  | sub h =>
    cases k with
    | sub k => exact .sub (h.comp k hR)
  | dataType =>
    cases k
    exact .dataType
  | resource howned hpredicate =>
    cases k with
    | resource kowned kpredicate =>
      exact .resource (hR _ _ _ howned kowned)
        (optionRel_comp hpredicate kpredicate fun _ _ _ h k => h.comp k hR)
  | relation htype hplayers =>
    cases k with
    | relation ktype kplayers =>
      exact .relation (fun hnone => optionRel_comp (htype hnone) (ktype hnone) hR)
        (hS _ _ _ hplayers kplayers)
  | value h =>
    cases k with
    | value k => exact .value (h.comp k hR)
  | identity h =>
    cases k with
    | identity k => exact .identity (h.trans k)
  | neq h =>
    cases k with
    | neq k => exact .neq (hR _ _ _ h k)

theorem TypeRef.Corresponds.imp {a b : TypeRef} (h : a.Corresponds R b)
    (hR : a.label = none → R a.var b.var → R' a.var b.var) : a.Corresponds R' b :=
  ⟨h.1, fun hnone => hR hnone (h.2 hnone)⟩

theorem Operand.Corresponds.imp {a b : Operand} (h : a.Corresponds equivalence R b)
    (hR : ∀ v ∈ a.var?, ∀ w ∈ b.var?, R v w → R' v w) : a.Corresponds equivalence R' b := by
  cases h with
  | constant h => exact .constant h
  | var h => exact .var (hR _ rfl _ rfl h)

theorem ValuePredicate.Corresponds.imp {p q : ValuePredicate} (h : p.Corresponds equivalence R q)
    (hR : ∀ v ∈ p.operand.var?, ∀ w ∈ q.operand.var?, R v w → R' v w) :
    p.Corresponds equivalence R' q :=
  ⟨h.1, h.2.imp hR⟩

/-- Only the variables that a key numbers have to correspond. -/
theorem AtomKind.Corresponds.imp {a b : AtomKind} (h : a.Corresponds equivalence R S b)
    (hR : ∀ v ∈ a.numbered, ∀ w ∈ b.numbered, R v w → R' v w)
    (hS : S a.players b.players → S' a.players b.players) : a.Corresponds equivalence R' S' b := by
  cases h with
  | @isa a b _ h =>
    apply isa
    apply h.imp
    intro hnone
    exact hR _ (by simp [numbered, hnone]) _ (by simp [numbered, ← h.1, hnone])
  | @sub a b _ h =>
    apply sub
    apply h.imp
    intro hnone
    exact hR _ (by simp [numbered, hnone]) _ (by simp [numbered, ← h.1, hnone])
  | dataType => exact .dataType
  | resource howned hpredicate =>
    apply resource
    · exact hR _ List.mem_cons_self _ List.mem_cons_self howned
    · apply optionRel_imp hpredicate
      intro p hp q hq hpq
      apply hpq.imp
      intro v hv w hw
      apply hR
      · apply List.mem_cons_of_mem
        simpa [Option.mem_def.1 hp] using hv
      · apply List.mem_cons_of_mem
        simpa [Option.mem_def.1 hq] using hw
  | relation htype hplayers =>
    apply relation _ (hS hplayers)
    intro hnone
    apply optionRel_imp (htype hnone)
    intro v hv w hw
    exact hR _ (by simpa [numbered, hnone] using hv) _ (by simpa [numbered, hnone] using hw)
  | value h =>
    apply value
    apply h.imp
    intro v hv w hw
    exact hR _ (by simpa [numbered] using hv) _ (by simpa [numbered] using hw)
  | identity h => exact .identity h
  | neq h => exact .neq (hR _ (List.mem_singleton.2 rfl) _ (List.mem_singleton.2 rfl) h)

/-- The players are compared by `S`, those of other atoms than relations as if they had none. -/
theorem AtomKind.Corresponds.players {a b : AtomKind} (h : a.Corresponds equivalence R S b)
    (hnil : S [] []) : S a.players b.players := by
  cases h with
  | relation htype hplayers => exact hplayers
  | _ => exact hnil

namespace RolePlayer

theorem rename_rename (rp : RolePlayer) : (rp.rename f).rename g = rp.rename (g ∘ f) := rfl

theorem RenameTo.refl (as : List RolePlayer) : RenameTo id as as := by
  have hid : rename id = id := rfl
  rw [RenameTo, hid, List.map_id]

theorem RenameTo.congr {as bs : List RolePlayer} (h : RenameTo f as bs)
    (hfg : ∀ v ∈ as.map (·.player), f v = g v) : RenameTo g as bs := by
  have hmap : as.map (rename f) = as.map (rename g) := by
    apply List.map_congr_left
    intro rp hrp
    rw [rename, rename, hfg _ (List.mem_map_of_mem hrp)]
  rw [RenameTo, ← hmap]
  exact h

theorem RenameTo.symm {as bs : List RolePlayer} (h : RenameTo f as bs)
    (hfg : Function.LeftInverse g f) : RenameTo g bs as := by
  have hback : (as.map (rename f)).map (rename g) = as := by
    rw [List.map_map]
    apply List.map_id''
    intro rp
    rw [Function.comp_apply, rename_rename, hfg.comp_eq_id]
    rfl
  have hperm := (h.map (rename g)).symm
  rw [hback] at hperm
  exact hperm

theorem RenameTo.trans {as bs cs : List RolePlayer} (h : RenameTo f as bs) (k : RenameTo g bs cs) :
    RenameTo (g ∘ f) as cs := by
  have hperm := (h.map (rename g)).trans k
  rw [List.map_map] at hperm
  exact hperm

end RolePlayer

namespace Atom

theorem RenamesTo.renameTo_players {a b : Atom} (h : a.RenamesTo equivalence f b) :
    RolePlayer.RenameTo f a.kind.players b.kind.players :=
  h.2.players List.Perm.nil

theorem RenamesTo.refl (a : Atom) : a.RenamesTo equivalence id a :=
  ⟨rfl, .refl (fun _ => rfl) .refl a.kind⟩

theorem RenamesTo.congr {a b : Atom} (h : a.RenamesTo equivalence f b)
    (hfg : ∀ v ∈ a.renamed, f v = g v) : a.RenamesTo equivalence g b := by
  constructor
  · rw [← hfg a.var List.mem_cons_self]
    exact h.1
  · apply h.2.imp
    · intro v hv w _ hvw
      rw [← hfg v (List.mem_cons_of_mem _ (List.mem_append_left _ hv))]
      exact hvw
    · intro hplayers
      apply hplayers.congr
      intro v hv
      exact hfg v (List.mem_cons_of_mem _ (List.mem_append_right _ hv))

theorem RenamesTo.symm {a b : Atom} (h : a.RenamesTo equivalence f b)
    (hfg : Function.LeftInverse g f) : b.RenamesTo equivalence g a := by
  constructor
  · rw [← h.1, hfg]
  · apply h.2.flip
    · intro v w hvw
      rw [← hvw, hfg]
    · intro as bs hplayers
      exact hplayers.symm hfg

theorem RenamesTo.trans {a b c : Atom} (h : a.RenamesTo equivalence f b)
    (k : b.RenamesTo equivalence g c) : a.RenamesTo equivalence (g ∘ f) c := by
  constructor
  · rw [Function.comp_apply, h.1, k.1]
  · apply h.2.comp k.2
    · intro u v w huv hvw
      rw [Function.comp_apply, huv, hvw]
    · intro as bs cs hab hbc
      exact hab.trans hbc

end Atom

end GraphQuery
