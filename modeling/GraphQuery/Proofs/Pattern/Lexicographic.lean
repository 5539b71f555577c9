import GraphQuery.Proofs.Collection.Lexicographic
import GraphQuery.Proofs.Pattern.Guard

/-!
# The order of combinations

The conjunctions of a list of patterns come in lexicographic order: which conjunction of the first
pattern they have decides first, that of the last pattern last. So where a conjunction stands can be
read off the numbers of those that it is put together from, and a nested conjunction is combined as if
its parts stood in its place.
-/

namespace GraphQuery.Pattern

variable {denied : Bool} {ps : List Pattern} {digits : List Nat} {c : List Statement}

/-- The numbers of conjunctions of the patterns of a list. -/
def widths (ps : List Pattern) (denied : Bool) : List Nat := ps.map (·.width denied)

/-- The conjunction that consists, one after the other, of the conjunctions of the patterns that
have the given numbers. -/
inductive Chosen (denied : Bool) : List Pattern → List Nat → List Statement → Prop
  | nil : Chosen denied [] [] []
  | cons {p : Pattern} {ps : List Pattern} {digit : Nat} {digits : List Nat}
    {c rest : List Statement} :
    (p.expand denied)[digit]? = some c → Chosen denied ps digits rest →
      Chosen denied (p :: ps) (digit :: digits) (c ++ rest)

theorem Chosen.within (h : Chosen denied ps digits c) :
    List.Forall₂ (· < ·) digits (widths ps denied) := by
  induction h with
  | nil => exact .nil
  | cons hdigit _ ih => exact .cons (List.getElem?_eq_some_iff.1 hdigit).1 ih

theorem exists_chosen (h : List.Forall₂ (· < ·) digits (widths ps denied)) :
    ∃ c, Chosen denied ps digits c := by
  induction ps generalizing digits with
  | nil =>
    cases h
    exact ⟨[], .nil⟩
  | cons p ps ih =>
    cases h with
    | cons hdigit hdigits =>
      obtain ⟨rest, hrest⟩ := ih hdigits
      exact ⟨_, .cons (List.getElem?_eq_getElem hdigit) hrest⟩

/-- Every front is followed by all backs before the next one is. -/
theorem getElem?_append {fronts backs : List (List Statement)} {front back : List Statement}
    {i j : Nat} (hfront : fronts[i]? = some front) (hback : backs[j]? = some back) :
    (append fronts backs)[i * backs.length + j]? = some (front ++ back) := by
  have hj : j < backs.length := (List.getElem?_eq_some_iff.1 hback).1
  induction fronts generalizing i with
  | nil => cases hfront
  | cons f fronts ih =>
    rw [append, List.flatMap_cons, ← append]
    cases i with
    | zero =>
      obtain rfl := Option.some.inj hfront
      rw [Nat.zero_mul, Nat.zero_add, List.getElem?_append_left (by rwa [List.length_map]),
        List.getElem?_map, hback, Option.map_some]
    | succ i =>
      have hplace : (i + 1) * backs.length + j =
          (backs.map (f ++ ·)).length + (i * backs.length + j) := by
        rw [List.length_map, Nat.succ_mul]
        omega
      rw [hplace, List.getElem?_append_right (Nat.le_add_right ..), Nat.add_sub_cancel_left]
      exact ih hfront

theorem getElem?_combinations {fronts : List (List Statement)} {front : List Statement} {i : Nat}
    (hfront : fronts[i]? = some front) (h : Chosen denied ps digits c) :
    (combinations fronts ps denied)[
        i * (widths ps denied).prod + mixedRadix (widths ps denied) digits]? =
      some (front ++ c) := by
  induction h generalizing fronts front i with
  | nil => simpa [widths, mixedRadix, combinations] using hfront
  | @cons p ps digit digits c rest hdigit _ ih =>
    have hplace : i * (widths (p :: ps) denied).prod +
        mixedRadix (widths (p :: ps) denied) (digit :: digits) =
        (i * (p.expand denied).length + digit) * (widths ps denied).prod +
          mixedRadix (widths ps denied) digits := by
      simp only [widths, width, List.map_cons, List.prod_cons, mixedRadix]
      rw [Nat.add_mul, Nat.mul_assoc, Nat.add_assoc]
    rw [combinations, hplace, ← List.append_assoc]
    exact ih (getElem?_append hfront hdigit)

theorem getElem?_combinations_iff {place : Nat} :
    (combinations [[]] ps denied)[place]? = some c ↔
      ∃ digits, Chosen denied ps digits c ∧ mixedRadix (widths ps denied) digits = place := by
  have hchosen {digits : List Nat} {c : List Statement} (h : Chosen denied ps digits c) :
      (combinations [[]] ps denied)[mixedRadix (widths ps denied) digits]? = some c := by
    have hfirst : [([] : List Statement)][0]? = some [] := rfl
    simpa using getElem?_combinations hfirst h
  constructor
  · intro h
    have hplace : place < (widths ps denied).prod := by
      rw [widths, ← width_combinations]
      exact (List.getElem?_eq_some_iff.1 h).1
    obtain ⟨digits, hdigits, rfl⟩ := exists_digits hplace
    obtain ⟨c', hc'⟩ := exists_chosen hdigits
    rw [hchosen hc', Option.some.injEq] at h
    exact ⟨digits, h ▸ hc', rfl⟩
  · rintro ⟨digits, h, rfl⟩
    exact hchosen h

mutual

/-- The patterns that the conjunctions of an asserted or denied pattern are combined from, those of a
nested pattern in its place. -/
def factors (denied : Bool) : Pattern → List Pattern
  | conjunction parts => if denied then [conjunction parts] else factorsOf denied parts
  | disjunction parts => if denied then factorsOf denied parts else [disjunction parts]
  | statement s => [statement s]
  | negation part => [negation part]

def factorsOf (denied : Bool) : List Pattern → List Pattern
  | [] => []
  | p :: ps => factors denied p ++ factorsOf denied ps

end

theorem combinations_factorsOf
    (h : ∀ p ∈ ps, ∀ fronts, combinations fronts (factors denied p) denied =
      append fronts (p.expand denied)) (fronts : List (List Statement)) :
    combinations fronts (factorsOf denied ps) denied = combinations fronts ps denied := by
  induction ps generalizing fronts with
  | nil => rfl
  | cons p ps ih =>
    obtain ⟨hp, hps⟩ := List.forall_mem_cons.1 h
    rw [factorsOf, combinations_append, hp, ih hps, combinations]

theorem combinations_factors (p : Pattern) (fronts : List (List Statement)) :
    combinations fronts (factors denied p) denied = append fronts (p.expand denied) := by
  induction p using Pattern.induction generalizing fronts with
  | statement s => rfl
  | negation part => rfl
  | conjunction parts ih =>
    rw [factors, expand]
    split
    case isTrue hdenied => rw [combinations, combinations, expand, if_pos hdenied]
    case isFalse => rw [combinations_factorsOf ih, combinations_eq_append]
  | disjunction parts ih =>
    rw [factors, expand]
    split
    case isTrue => rw [combinations_factorsOf ih, combinations_eq_append]
    case isFalse hdenied => rw [combinations, combinations, expand, if_neg hdenied]

theorem factorsOf_eq_flatMap (ps : List Pattern) :
    factorsOf denied ps = ps.flatMap (factors denied) := by
  induction ps with
  | nil => rfl
  | cons p ps ih => rw [factorsOf, ih, List.flatMap_cons]

/-- No factor is combined from others. -/
theorem combines_of_mem_factors {p q : Pattern} (h : q ∈ factors denied p) :
    q.combines denied = false := by
  induction p using Pattern.induction with
  | statement s =>
    obtain rfl := List.mem_singleton.1 h
    rfl
  | negation part =>
    obtain rfl := List.mem_singleton.1 h
    rfl
  | conjunction parts ih =>
    cases denied with
    | false =>
      rw [factors, if_neg Bool.false_ne_true, factorsOf_eq_flatMap, List.mem_flatMap] at h
      obtain ⟨p, hp, hq⟩ := h
      exact ih p hp hq
    | true =>
      obtain rfl := List.mem_singleton.1 h
      rfl
  | disjunction parts ih =>
    cases denied with
    | false =>
      obtain rfl := List.mem_singleton.1 h
      rfl
    | true =>
      rw [factors, if_pos rfl, factorsOf_eq_flatMap, List.mem_flatMap] at h
      obtain ⟨p, hp, hq⟩ := h
      exact ih p hp hq

/-- The combinations of a list of patterns are as many as the product of their widths. Each consists
of one conjunction of each pattern and stands at the place that the numbers of these write down, so
the combinations come in lexicographic order. They are what the patterns expand to as the parts of
one conjunction, or of a denied disjunction, and stay the same when the parts of nested ones are
listed in their place. -/
theorem combinations_lexicographic (ps : List Pattern) (denied : Bool) :
    (combinations [[]] ps denied).length = (widths ps denied).prod ∧
      (∀ place c, (combinations [[]] ps denied)[place]? = some c ↔
        ∃ digits, Chosen denied ps digits c ∧ mixedRadix (widths ps denied) digits = place) ∧
      (∀ digits digits' c c', Chosen denied ps digits c → Chosen denied ps digits' c' →
        (mixedRadix (widths ps denied) digits < mixedRadix (widths ps denied) digits' ↔
          digits < digits')) ∧
      (if denied then disjunction ps else conjunction ps).expand denied =
        combinations [[]] ps denied ∧
      combinations [[]] (factorsOf denied ps) denied = combinations [[]] ps denied ∧
      ∀ q ∈ factorsOf denied ps, q.combines denied = false := by
  refine ⟨width_combinations ps denied, fun _ _ => getElem?_combinations_iff, ?_, ?_, ?_, ?_⟩
  · intro digits digits' c c' h h'
    exact mixedRadix_lt_mixedRadix_iff h.within h'.within
  · cases denied with
    | false => rfl
    | true => rfl
  · exact combinations_factorsOf (fun p _ => combinations_factors p) [[]]
  · intro q hq
    rw [factorsOf_eq_flatMap, List.mem_flatMap] at hq
    obtain ⟨p, -, hq⟩ := hq
    exact combines_of_mem_factors hq

/-- A disjunction beside a conjunction with another disjunction in it: the later disjunction varies
first. -/
theorem combinations_lexicographic_nested :
    let named (name : String) : Statement := ⟨.named "x", .positive, [.label ⟨name⟩]⟩
    let either (name name' : String) : Pattern :=
      .disjunction [.statement (named name), .statement (named name')]
    let ps : List Pattern := [either "a" "b", .conjunction [either "c" "d", .statement (named "e")]]
    Chosen false ps [0, 1] [named "a", named "d", named "e"] ∧
      Chosen false ps [1, 0] [named "b", named "c", named "e"] ∧ ([0, 1] : List Nat) < [1, 0] ∧
      mixedRadix (widths ps false) [0, 1] < mixedRadix (widths ps false) [1, 0] ∧
      (combinations [[]] ps false)[2]? = some [named "b", named "c", named "e"] ∧
      (combinations [[]] ps false).length = 4 := by
  intro named either ps
  obtain ⟨hlength, hentry, horder, -, -, -⟩ := combinations_lexicographic ps false
  have h : Chosen false ps [0, 1] [named "a", named "d", named "e"] :=
    .cons (c := [named "a"]) rfl (.cons (c := [named "d", named "e"]) rfl .nil)
  have h' : Chosen false ps [1, 0] [named "b", named "c", named "e"] :=
    .cons (c := [named "b"]) rfl (.cons (c := [named "c", named "e"]) rfl .nil)
  have hlt : ([0, 1] : List Nat) < [1, 0] := by decide
  exact ⟨h, h', hlt, (horder _ _ _ _ h h').2 hlt, (hentry 2 _).2 ⟨_, h', rfl⟩, hlength⟩

end GraphQuery.Pattern
