import GraphQuery.Digest.Basic
import GraphQuery.Pattern.NormalForm

/-!
# What terms, statements and patterns feed to a hasher

Terms feed all that they are. Statements and what they consist of feed their shape only, in keeping
with their `==`: a generated variable feeds that it is generated, a relation the multiset of its
players and a statement the set of its properties.
-/

namespace GraphQuery

instance : Feed Variable where
  feed
    | digest, .named name => 0 :: feed digest name
    | _, .generated number => [1, number.toNat]

/-- The name of a variable, or that it is generated. -/
def Variable.shapeFeed (digest : Digest) (v : Variable) : List Nat := feed digest v.name?

instance : Feed Label := ⟨fun digest l => feed digest l.name⟩

instance : Feed ConceptId := ⟨fun _ id => [id.number]⟩

instance : Feed ValueType := ⟨fun _ type => [type.ctorIdx]⟩

instance : Feed Comparator := ⟨fun _ comparator => [comparator.ctorIdx]⟩

instance : Feed PropertyKind := ⟨fun _ kind => [kind.ctorIdx]⟩

instance : Feed Polarity := ⟨fun _ polarity => [polarity.ctorIdx]⟩

instance : Feed Value where
  feed
    | digest, .string text => 0 :: feed digest text
    | digest, .long number => 1 :: feed digest number
    | _, .double number => [2, number.bits.toNat]
    | digest, .boolean truth => 3 :: feed digest truth
    | digest, .datetime time => 4 :: feed digest time

instance : Feed Operand where
  feed
    | digest, .constant value => 0 :: feed digest value
    | digest, .var v => 1 :: feed digest v

/-- The constant of an operand, or the shape of its variable. -/
def Operand.shapeFeed (digest : Digest) : Operand → List Nat
  | .constant value => 0 :: feed digest value
  | .var v => 1 :: v.shapeFeed digest

instance : Feed ValuePredicate :=
  ⟨fun digest p => feed digest p.comparator ++ feed digest p.operand⟩

instance : Feed TypeRef :=
  ⟨fun digest type => type.var.shapeFeed digest ++ feed digest type.label⟩

instance : Feed RolePlayer :=
  ⟨fun digest rp => feed digest rp.role ++ rp.player.shapeFeed digest⟩

mutual

/-- The kind of a property and the shape of what it says. -/
def Property.shapeFeed (digest : Digest) : Property → List Nat
  | .isa type direct => 0 :: (feed digest type ++ feed digest direct)
  | .sub superType direct => 1 :: (feed digest superType ++ feed digest direct)
  | .label label => 2 :: feed digest label
  | .id id => 3 :: feed digest id
  | .dataType type => 4 :: feed digest type
  | .has attributeType owned => 5 :: (feed digest attributeType ++ owned.shapeFeed digest)
  | .relation players => 6 :: Feed.multiset (players.map (Feed.digested digest))
  | .value predicate =>
    7 :: (feed digest predicate.comparator ++ predicate.operand.shapeFeed digest)
  | .neq other => 8 :: other.shapeFeed digest
  termination_by structural p => p

/-- The shape of a statement's variable, its polarity and the set of its properties. -/
def Statement.shapeFeed (digest : Digest) : Statement → List Nat
  | ⟨var, polarity, properties⟩ =>
    var.shapeFeed digest ++ feed digest polarity ++
      Feed.set (Property.shapeDigests digest properties)

def Property.shapeDigests (digest : Digest) : List Property → List Nat
  | [] => []
  | p :: ps => digest (p.shapeFeed digest) :: Property.shapeDigests digest ps

end

instance : Feed Property := ⟨Property.shapeFeed⟩

instance : Feed Statement := ⟨Statement.shapeFeed⟩

theorem Property.shapeDigests_eq_map (digest : Digest) (ps : List Property) :
    Property.shapeDigests digest ps = ps.map (Feed.digested digest) := by
  induction ps with
  | nil => rfl
  | cons p ps ih => rw [Property.shapeDigests, ih]; rfl

instance {α : Type} [BEq α] [Feed α] : Feed (Distinct α) :=
  ⟨fun digest s => Feed.multiset (s.toList.map (Feed.digested digest))⟩

mutual

/-- The tree of a pattern, with the shapes of the statements at its leaves, and then the words of
`rest`. -/
def Pattern.shapeFeed (digest : Digest) : Pattern → List Nat → List Nat
  | .statement s, rest => 0 :: (feed digest s ++ rest)
  | .conjunction parts, rest => 1 :: parts.length :: Pattern.shapeFeeds digest parts rest
  | .disjunction parts, rest => 2 :: parts.length :: Pattern.shapeFeeds digest parts rest
  | .negation part, rest => 3 :: part.shapeFeed digest rest
  termination_by structural p => p

/-- The trees of the patterns of a list, one after the other, and then the words of `rest`. -/
def Pattern.shapeFeeds (digest : Digest) : List Pattern → List Nat → List Nat
  | [], rest => rest
  | p :: ps, rest => p.shapeFeed digest (Pattern.shapeFeeds digest ps rest)

end

instance : Feed Pattern := ⟨fun digest p => p.shapeFeed digest []⟩

end GraphQuery
