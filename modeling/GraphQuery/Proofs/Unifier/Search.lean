import GraphQuery.Proofs.Unifier.Placement

/-!
# The search with shared buffers

The pairings are found by one search that marks in one buffer which children are in use and writes the
pairs of the current placement to another. Every call puts the next parent on each free child in turn,
goes on with one pair more, and takes it back. The search always ends, leaves both buffers as it has
found them, and records just the pairings, in their order.
-/

namespace GraphQuery.RolePlayer

variable {strictness : Strictness} {children parents : List RolePlayer}

/-- The buffers of a search, and the pairings that it has recorded. -/
structure Search (children : List RolePlayer) where
  used : Fin children.length → Bool
  current : List (Variable × Variable)
  found : List (List (Variable × Variable))

namespace Search

variable {s s' t : Search children} {parent : RolePlayer} {i : Fin children.length}
  {is : List (Fin children.length)}

/-- Nothing is in use and nothing recorded. -/
def start (children : List RolePlayer) : Search children := ⟨fun _ => false, [], []⟩

/-- Records the pairs of the current placement. -/
def record (s : Search children) : Search children := { s with found := s.found ++ [s.current] }

/-- Puts a parent on a child. -/
def take (s : Search children) (i : Fin children.length) (parent : RolePlayer) : Search children :=
  { s with
    used := Function.update s.used i true
    current := s.current ++ [((children.get i).player, parent.player)] }

/-- Takes back the last pair, and with it the use of the child. -/
def release (s : Search children) (i : Fin children.length) : Search children :=
  { s with
    used := Function.update s.used i false
    current := s.current.dropLast }

mutual

/-- That a call with some buffers ends with others. The parent that it is about is the one that comes
after as many as have been placed. -/
inductive Call (strictness : Strictness) (children parents : List RolePlayer) :
    Search children → Search children → Prop
  | complete {s : Search children} (h : parents[s.current.length]? = none) :
    Call strictness children parents s s.record
  | descend {s t : Search children} {parent : RolePlayer}
    (h : parents[s.current.length]? = some parent)
    (hloop : Loop strictness children parents parent (List.finRange children.length) s t) :
    Call strictness children parents s t

/-- That the loop of a call, when the given children are left to try, ends with some buffers. -/
inductive Loop (strictness : Strictness) (children parents : List RolePlayer) :
    RolePlayer → List (Fin children.length) → Search children → Search children → Prop
  | finished {parent : RolePlayer} {s : Search children} : Loop strictness children parents parent [] s s
  | skipped {parent : RolePlayer} {i : Fin children.length} {is : List (Fin children.length)}
    {s t : Search children}
    (h : rejects strictness children s.used parent i = true)
    (hrest : Loop strictness children parents parent is s t) :
    Loop strictness children parents parent (i :: is) s t
  | taken {parent : RolePlayer} {i : Fin children.length} {is : List (Fin children.length)}
    {s s' t : Search children}
    (h : rejects strictness children s.used parent i = false)
    (hcall : Call strictness children parents (s.take i parent) s')
    (hrest : Loop strictness children parents parent is (s'.release i) t) :
    Loop strictness children parents parent (i :: is) s t

end

/-- What a search finds that looks first whether there are enough children for the parents. -/
def Finds (strictness : Strictness) (children parents : List RolePlayer)
    (found : List (List (Variable × Variable))) : Prop :=
  if sizesFit strictness children parents then
    ∃ t, Call strictness children parents (start children) t ∧ t.found = found
  else found = []

variable {rest : List RolePlayer}

theorem loop_nil_iff : Loop strictness children parents parent [] s t ↔ t = s := by
  constructor
  · intro h
    cases h
    rfl
  · rintro rfl
    exact .finished

theorem loop_cons_iff :
    Loop strictness children parents parent (i :: is) s t ↔
      if rejects strictness children s.used parent i then
        Loop strictness children parents parent is s t
      else ∃ s', Call strictness children parents (s.take i parent) s' ∧
        Loop strictness children parents parent is (s'.release i) t := by
  cases hrejects : rejects strictness children s.used parent i with
  | true =>
    rw [if_pos rfl]
    refine ⟨?_, .skipped hrejects⟩
    intro h
    cases h with
    | skipped _ hrest => exact hrest
    | taken h => exact absurd (hrejects.symm.trans h) Bool.true_eq_false_eq_False
  | false =>
    rw [if_neg Bool.false_ne_true]
    refine ⟨?_, fun ⟨_, hcall, hrest⟩ => .taken hrejects hcall hrest⟩
    intro h
    cases h with
    | skipped h => exact absurd (h.symm.trans hrejects) Bool.true_eq_false_eq_False
    | taken _ hcall hrest => exact ⟨_, hcall, hrest⟩

/-- The search when the given placements of the parents that are left have been recorded, each after
the pairs of the current placement. -/
def recordAll (s : Search children) (rest : List RolePlayer)
    (fs : List (Fin rest.length → Fin children.length)) : Search children :=
  { s with found := s.found ++ fs.map fun f => s.current ++ pairsOf children rest f }

theorem recordAll_nil : s.recordAll rest [] = s := by
  rw [recordAll, List.map_nil, List.append_nil]

theorem recordAll_recordAll {fs gs : List (Fin rest.length → Fin children.length)} :
    (s.recordAll rest fs).recordAll rest gs = s.recordAll rest (fs ++ gs) := by
  simp only [recordAll, List.map_append, List.append_assoc]

/-- A child that was free is free again, and what has been recorded with it in use is what goes on
with it. -/
theorem release_recordAll_take (h : s.used i = false)
    (fs : List (Fin rest.length → Fin children.length)) :
    ((s.take i parent).recordAll rest fs).release i =
      s.recordAll (parent :: rest) (fs.map (Fin.cons i)) := by
  have hused : Function.update (Function.update s.used i true) i false = s.used := by
    rw [Function.update_idem, ← h, Function.update_eq_self]
  simp only [recordAll, take, release, hused, List.dropLast_concat, List.map_map]
  congr 2
  apply List.map_congr_left
  intro f _
  rw [Function.comp_apply, pairsOf_cons, List.append_assoc]
  rfl

/-- The loop records what starts with the children that are left to try, as long as each call records
what it can be completed to. -/
theorem loop_iff
    (hcall : ∀ s t : Search children, parents.drop s.current.length = rest →
      (Call strictness children parents s t ↔
        t = s.recordAll rest (placements strictness children s.used rest)))
    (hrest : parents.drop s.current.length = parent :: rest) :
    Loop strictness children parents parent is s t ↔
      t = s.recordAll (parent :: rest) (is.flatMap fun i =>
        if rejects strictness children s.used parent i then []
        else (placements strictness children (Function.update s.used i true) rest).map
          (Fin.cons i)) := by
  induction is generalizing s with
  | nil => rw [loop_nil_iff, List.flatMap_nil, recordAll_nil]
  | cons i is ih =>
    rw [loop_cons_iff, List.flatMap_cons]
    cases hrejects : rejects strictness children s.used parent i with
    | true => rw [if_pos rfl, if_pos rfl, List.nil_append, ih hrest]
    | false =>
      have hdrop : parents.drop (s.take i parent).current.length = rest := by
        rw [take, List.length_append, List.length_singleton, ← List.drop_drop, hrest]
        rfl
      rw [if_neg Bool.false_ne_true, if_neg Bool.false_ne_true]
      simp only [hcall _ _ hdrop, exists_eq_left]
      rw [release_recordAll_take (rejects_eq_false_iff.1 hrejects).1, ← recordAll_recordAll]
      exact ih hrest

/-- A call ends, and in one way: both buffers are as before, and all placements of the parents that are
left on children that are free have been recorded in order. -/
theorem call_iff : Call strictness children parents s t ↔
    t = s.recordAll (parents.drop s.current.length)
      (placements strictness children s.used (parents.drop s.current.length)) := by
  generalize hrest : parents.drop s.current.length = rest
  induction rest generalizing s t with
  | nil =>
    have hnone : parents[s.current.length]? = none := by
      rw [← List.head?_drop, hrest, List.head?_nil]
    have hrecord : s.recordAll [] (placements strictness children s.used []) = s.record := by
      rw [recordAll, record, placements, List.map_singleton, pairsOf_nil, List.append_nil]
    rw [hrecord]
    constructor
    · intro h
      cases h with
      | complete => rfl
      | descend h => rw [hnone] at h; cases h
    · rintro rfl
      exact .complete hnone
  | cons parent rest ih =>
    have hsome : parents[s.current.length]? = some parent := by
      rw [← List.head?_drop, hrest, List.head?_cons]
    rw [placements, ← loop_iff (fun _ _ => ih) hrest]
    constructor
    · intro h
      cases h with
      | complete h => rw [hsome] at h; cases h
      | descend h hloop =>
        rw [hsome, Option.some.injEq] at h
        subst h
        exact hloop
    · exact .descend hsome

/-- The whole search records the pairings. -/
theorem finds_iff {pairings : List (List (Variable × Variable))} :
    Finds strictness children parents pairings ↔
      pairings = RolePlayer.pairings strictness children parents := by
  have hfound : ((start children).recordAll parents
      (placements strictness children (fun _ => false) parents)).found =
        (placements strictness children (fun _ => false) parents).map
          (pairsOf children parents) := by
    simp only [recordAll, start, List.nil_append]
  rw [Finds, pairings_eq_map_placements]
  split
  · simp only [call_iff, exists_eq_left]
    rw [eq_comm, ← hfound]
    rfl
  · rfl

end Search

/-- The pairings are the pairs of the placements of the parents on the children, one list for each of
them, in lexicographic order of the children's places. The search finds just these: each call of it
ends, in one way, and leaves the buffers as they were. -/
theorem pairings_enumerate (strictness : Strictness) (children parents : List RolePlayer) :
    (∃ fs : List (Fin parents.length → Fin children.length),
      fs.Pairwise (fun f g => List.ofFn f < List.ofFn g) ∧
        (∀ f, f ∈ fs ↔ IsPlacement strictness children parents f) ∧
        pairings strictness children parents = fs.map (pairsOf children parents)) ∧
      (∀ s : Search children, ∃ t : Search children,
        (∀ t', Search.Call strictness children parents s t' ↔ t' = t) ∧
          t.used = s.used ∧ t.current = s.current) ∧
      ∀ found, Search.Finds strictness children parents found ↔
        found = pairings strictness children parents :=
  ⟨exists_placements strictness children parents,
    fun _ => ⟨_, fun _ => Search.call_iff, rfl, rfl⟩, fun _ => Search.finds_iff⟩

end GraphQuery.RolePlayer
