import GraphQuery.Digest.Statement
import GraphQuery.Traversal.Fragment

/-!
# What fragments feed to a hasher

Fragments feed all that they are, every variable as it is.
-/

namespace GraphQuery

instance : Feed Edge where
  feed
    | digest, .isa member type => 0 :: (feed digest member ++ feed digest type)
    | digest, .sub lower upper direct =>
      1 :: (feed digest lower ++ feed digest upper ++ feed digest direct)
    | digest, .has owner owned => 2 :: (feed digest owner ++ feed digest owned)
    | digest, .role relation edge played player =>
      3 :: (feed digest relation ++ feed digest edge ++ feed digest played ++ feed digest player)

instance : Feed Direction := ⟨fun _ direction => [direction.ctorIdx]⟩

instance : Feed Fragment where
  feed
    | digest, .edge edge direction => 0 :: (feed digest edge ++ feed digest direction)
    | digest, .label var label => 1 :: (feed digest var ++ feed digest label)
    | digest, .id var id => 2 :: (feed digest var ++ feed digest id)
    | digest, .value var predicate => 3 :: (feed digest var ++ feed digest predicate)
    | digest, .dataType var type => 4 :: (feed digest var ++ feed digest type)
    | digest, .neq var other => 5 :: (feed digest var ++ feed digest other)

instance : Feed FragmentSet :=
  ⟨fun digest s => feed digest s.property ++ feed digest s.fragments⟩

end GraphQuery
