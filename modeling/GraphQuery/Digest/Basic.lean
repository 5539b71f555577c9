import GraphQuery.Collection.SortedSet

/-!
# Digests

A hash table keeps of each value one word, the digest of the words that the value feeds to a hasher.
What a value feeds must not depend on anything that its equality leaves out, so order and generated
variables are left out here where equality leaves them out. A collection compared as a set or
multiset feeds the digests of its members in ascending order, which is where the choice of digest
enters: it is a parameter of everything that is fed.
-/

namespace GraphQuery

/-- A digest condenses a sequence of words into one word. -/
abbrev Digest := List Nat → Nat

/-- The values of a type feed words to a hasher. -/
class Feed (α : Type) where
  /-- The words of a value, where members of an unordered collection are condensed by `digest`. -/
  feed (digest : Digest) (value : α) : List Nat

export Feed (feed)

namespace Feed

def digested {α : Type} [Feed α] (digest : Digest) (value : α) : Nat := digest (feed digest value)

/-- A sequence feeds its length and its members in order. -/
def sequence (members : List (List Nat)) : List Nat := members.length :: members.flatten

/-- A multiset feeds the digests of its members in ascending order. -/
def multiset (digests : List Nat) : List Nat :=
  digests.length :: digests.mergeSort (· ≤ ·)

/-- A set feeds the digests of its members in ascending order, each once. -/
def set (digests : List Nat) : List Nat :=
  let members := SortedSet.ofList digests
  members.size :: members.toList

instance : Feed Nat := ⟨fun _ n => [n]⟩

instance : Feed Bool := ⟨fun _ b => [b.toNat]⟩

instance : Feed Int := ⟨fun _ n => [(n < 0 : Bool).toNat, n.natAbs]⟩

instance : Feed String := ⟨fun _ s => sequence (s.toList.map fun c => [c.toNat])⟩

instance {α : Type} [Feed α] : Feed (Option α) where
  feed
    | _, none => [0]
    | digest, some a => 1 :: feed digest a

instance {α : Type} [Feed α] : Feed (List α) :=
  ⟨fun digest members => sequence (members.map (feed digest))⟩

instance {α β : Type} [Feed α] [Feed β] : Feed (α × β) :=
  ⟨fun digest pair => feed digest pair.1 ++ feed digest pair.2⟩

end Feed

namespace Digest

/-- A word in front of a number. From the lowest binary digit up the result has a zero for each
digit that the length of the word takes and then a one, the length of the word, the word, and the
number. A digest is thus hardly longer than the words that it is made of, also where these are
digests. -/
def pack (word rest : Nat) : Nat :=
  let length := word.log2 + 1
  let width := length.log2 + 1
  rest <<< (length + width + 1 + width) + (2 * (word <<< width + length) + 1) <<< width

/-- The digest that gives different sequences different numbers. -/
def exact : Digest
  | [] => 0
  | word :: words => pack word (exact words)

theorem pack_eq (word rest : Nat) :
    pack word rest =
      let length := word.log2 + 1
      let width := length.log2 + 1
      (2 * ((rest <<< length + word) <<< width + length) + 1) <<< width := by
  simp only [pack, Nat.shiftLeft_eq, Nat.pow_add, Nat.pow_one, Nat.add_mul, Nat.mul_add]
  ac_rfl

theorem eq_and_eq_of_shiftLeft_add {a b v w n : Nat} (hv : v < 1 <<< n) (hw : w < 1 <<< n)
    (h : a <<< n + v = b <<< n + w) : a = b ∧ v = w := by
  have shifted {c u : Nat} (hu : u < 1 <<< n) : (c <<< n + u) >>> n = c := by
    rw [Nat.one_shiftLeft] at hu
    rw [Nat.shiftLeft_eq, Nat.shiftRight_eq_div_pow, Nat.mul_comm,
      Nat.mul_add_div (Nat.two_pow_pos n), Nat.div_eq_of_lt hu, Nat.add_zero]
  have hab : a = b := by rw [← shifted (c := a) hv, h, shifted hw]
  subst hab
  exact ⟨rfl, Nat.add_left_cancel h⟩

theorem lt_one_shiftLeft_length (n : Nat) : n < 1 <<< (n.log2 + 1) :=
  Nat.one_shiftLeft _ ▸ Nat.lt_log2_self

theorem eq_and_eq_of_odd_shiftLeft {a b m n : Nat} (h : (2 * a + 1) <<< m = (2 * b + 1) <<< n) :
    a = b ∧ m = n := by
  induction m generalizing n with
  | zero =>
    cases n with
    | zero => simp only [Nat.shiftLeft_zero] at h; omega
    | succ n => rw [Nat.shiftLeft_zero, Nat.shiftLeft_succ] at h; omega
  | succ m ih =>
    cases n with
    | zero => rw [Nat.shiftLeft_zero, Nat.shiftLeft_succ] at h; omega
    | succ n =>
      rw [Nat.shiftLeft_succ, Nat.shiftLeft_succ] at h
      have ⟨hab, hmn⟩ := @ih n (by omega)
      exact ⟨hab, congrArg Nat.succ hmn⟩

theorem pack_injective {v w a b : Nat} (h : pack v a = pack w b) : v = w ∧ a = b := by
  rw [pack_eq, pack_eq] at h
  have ⟨h, hwidth⟩ := eq_and_eq_of_odd_shiftLeft h
  rw [hwidth] at h
  have ⟨h, hlength⟩ := eq_and_eq_of_shiftLeft_add
    (hwidth ▸ lt_one_shiftLeft_length _) (lt_one_shiftLeft_length _) h
  rw [hlength] at h
  exact (eq_and_eq_of_shiftLeft_add
    (hlength ▸ lt_one_shiftLeft_length v) (lt_one_shiftLeft_length w) h).symm

theorem pack_ne_zero (w a : Nat) : pack w a ≠ 0 := by
  rw [pack_eq, Nat.shiftLeft_eq]
  exact Nat.mul_ne_zero (Nat.succ_ne_zero _) (Nat.ne_of_gt (Nat.two_pow_pos _))

theorem exact_injective {a b : List Nat} (h : exact a = exact b) : a = b := by
  induction a generalizing b with
  | nil =>
    cases b with
    | nil => rfl
    | cons w ws => exact absurd h.symm (pack_ne_zero w _)
  | cons v vs ih =>
    cases b with
    | nil => exact absurd h (pack_ne_zero v _)
    | cons w ws =>
      have ⟨hw, hws⟩ := pack_injective h
      rw [hw, ih hws]

/-- Whether two values feed the same words, so that every hasher gives them the same hash. -/
def same {α : Type} [Feed α] (a b : α) : Bool := feed exact a = feed exact b

end Digest

end GraphQuery
