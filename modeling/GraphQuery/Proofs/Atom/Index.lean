import GraphQuery.Proofs.Atom.Family

/-!
# Families found by an index

Families can also be held as a plain list, with an index from the atoms that opened them to their
places in the list. The index compares atoms by the equivalence alone. It sends each atom to the
place of the class that has its key, however many were added, so the same families are filled and
found as where each class stands with its key.
-/

namespace GraphQuery

/-- A list of families with an index of their places. -/
structure FamilyIndex where
  equivalence : Equivalence
  /-- The place of each family, found by any atom that is equivalent to the one that opened it. -/
  places : List (KeyedAtom × Nat)
  families : List (List Atom)

namespace FamilyIndex

def empty (equivalence : Equivalence) : FamilyIndex := ⟨equivalence, [], []⟩

def place? (x : FamilyIndex) (a : Atom) : Option Nat := x.places.lookup ⟨x.equivalence, a⟩

/-- Adds a member to the family at the place of the atom, or a family at the end. -/
def insert (x : FamilyIndex) (a : Atom) : FamilyIndex :=
  match x.place? a with
  | some i => { x with families := x.families.modify i (· ++ [a]) }
  | none =>
    { x with
      places := (⟨x.equivalence, a⟩, x.families.length) :: x.places
      families := x.families ++ [[a]] }

def insertMany (x : FamilyIndex) (as : List Atom) : FamilyIndex := as.foldl insert x

def isNew (x : FamilyIndex) (a : Atom) : Bool := (x.place? a).isNone

def family (x : FamilyIndex) (a : Atom) : List Atom := ((x.place? a).bind (x.families[·]?)).getD []

end FamilyIndex

namespace AtomFamilies

variable {key key' : AtomKey} {a : Atom} {cs : List (AtomKey × List Atom)}

/-- The member is added to the first class that has its key. -/
theorem map_snd_addTo :
    (addTo key a cs).map (·.2) =
      match cs.findIdx? (·.1 = key) with
      | some i => (cs.map (·.2)).modify i (· ++ [a])
      | none => cs.map (·.2) ++ [[a]] := by
  induction cs with
  | nil => rfl
  | cons c cs ih =>
    rw [addTo, List.findIdx?_cons]
    by_cases h : c.1 = key
    · simp [h]
    · rw [if_neg h, List.map_cons, ih]
      cases cs.findIdx? (·.1 = key) <;> simp [h]

theorem findIdx?_addTo :
    (addTo key a cs).findIdx? (·.1 = key') =
      if key = key' then some ((cs.findIdx? (·.1 = key)).getD cs.length)
      else cs.findIdx? (·.1 = key') := by
  induction cs with
  | nil => by_cases h : key = key' <;> simp [addTo, h]
  | cons c cs ih =>
    rw [addTo]
    by_cases hc : c.1 = key
    · subst hc
      by_cases h : c.1 = key' <;> simp [List.findIdx?_cons, h]
    · rw [if_neg hc]
      by_cases h : key = key'
      · subst h
        rw [List.findIdx?_cons, ih, if_pos rfl, List.findIdx?_cons]
        cases cs.findIdx? (·.1 = key) <;> simp [hc]
      · simp [List.findIdx?_cons, h, ih]

end AtomFamilies

namespace FamilyIndex

variable {x : FamilyIndex} {F : AtomFamilies}

/-- The families are those of the classes, and the index sends an atom to the class with its key. -/
structure Tracks (x : FamilyIndex) (F : AtomFamilies) : Prop where
  equivalence : x.equivalence = F.equivalence
  families : x.families = F.classes.map (·.2)
  places : ∀ a, x.place? a = F.classes.findIdx? (·.1 = F.equivalence.key a)

theorem tracks_empty (equivalence : Equivalence) :
    (empty equivalence).Tracks (.empty equivalence) :=
  ⟨rfl, rfl, fun _ => rfl⟩

/-- A place is found by all atoms that are equivalent to the one that it is entered for. -/
theorem lookup_cons_keyed {equivalence : Equivalence} {a b : Atom} {i : Nat}
    {places : List (KeyedAtom × Nat)} :
    List.lookup ⟨equivalence, b⟩ ((⟨equivalence, a⟩, i) :: places) =
      if equivalence.key a = equivalence.key b then some i
      else places.lookup ⟨equivalence, b⟩ := by
  rw [List.lookup_cons, KeyedAtom.mk_beq_mk, Atom.equivalent]
  by_cases h : equivalence.key a = equivalence.key b
  · simp [h]
  · simp [h, Ne.symm h]

theorem Tracks.insert (h : x.Tracks F) (a : Atom) : (x.insert a).Tracks (F.insert a) := by
  obtain ⟨equivalence, places, families⟩ := x
  obtain rfl : equivalence = F.equivalence := h.equivalence
  obtain rfl : families = F.classes.map (·.2) := h.families
  have hplace (b : Atom) :
      places.lookup ⟨F.equivalence, b⟩ = F.classes.findIdx? (·.1 = F.equivalence.key b) :=
    h.places b
  rw [FamilyIndex.insert, AtomFamilies.insert, place?, hplace a]
  cases hfound : F.classes.findIdx? (·.1 = F.equivalence.key a) with
  | some i =>
    constructor
    case equivalence => rfl
    case families => rw [AtomFamilies.map_snd_addTo, hfound]
    case places =>
      intro b
      rw [place?, hplace, AtomFamilies.findIdx?_addTo, hfound]
      split
      case isTrue hkey => rw [← hkey, hfound, Option.getD_some]
      case isFalse => rfl
  | none =>
    constructor
    case equivalence => rfl
    case families => rw [AtomFamilies.map_snd_addTo, hfound]
    case places =>
      intro b
      rw [place?, lookup_cons_keyed, AtomFamilies.findIdx?_addTo, hfound, hplace,
        List.length_map, Option.getD_none]

theorem Tracks.insertMany (h : x.Tracks F) (as : List Atom) :
    (x.insertMany as).Tracks (F.insertMany as) := by
  induction as generalizing x F with
  | nil => exact h
  | cons a as ih => exact ih (h.insert a)

theorem Tracks.isNew (h : x.Tracks F) (a : Atom) : x.isNew a = F.isNew a := by
  rw [FamilyIndex.isNew, h.places, AtomFamilies.isNew, ← Option.not_isSome,
    List.findIdx?_isSome]

theorem Tracks.family (h : x.Tracks F) (a : Atom) : x.family a = F.family a := by
  rw [FamilyIndex.family, h.places, h.families, AtomFamilies.family,
    List.find?_eq_bind_findIdx?_getElem?, Option.map_bind]
  simp only [List.getElem?_map, Function.comp_def]

end FamilyIndex

end GraphQuery
