import GraphQuery.Insert.Lowering
import GraphQuery.Proofs.Insert.Trace
import GraphQuery.Proofs.Store.Edges

/-!
# Invariants of inserts

While writers are applied in an order in which what they use is complete by then, all concepts are
made from complete drafts, and every link that has been written leads between the concepts that the
insert has for its variables. An insert that fails has at least kept its trace orderly.
-/

namespace GraphQuery

open ExecutionEvent Std.Do

set_option mvcgen.warning false

namespace Writer

/-- The variables whose concepts a writer uses. -/
def uses (w : Writer) : List Variable :=
  match w.action with
  | .isa type => [type]
  | .sub superType => [superType]
  | .label _ | .id _ | .dataType _ | .value _ => []
  | .has owned => [w.var, owned]
  | .rolePlayers players => w.var :: players.map (·.player)

/-- Whether a writer links concepts that are there. -/
def links (w : Writer) : Bool :=
  match w.action with
  | .has _ | .rolePlayers _ => true
  | .isa _ | .sub _ | .label _ | .id _ | .dataType _ | .value _ => false

/-- A writer requires what it uses, and helps to produce its own variable unless it links. -/
structure Regular (w : Writer) : Prop where
  required : ∀ v ∈ w.uses, v ∈ w.required
  produced : w.produced = if w.links then .empty else .ofList [w.var]

theorem regular_of_writer? {p : Property} {v : Variable} {w : Writer}
    (h : p.writer? v = some w) : w.Regular := by
  cases p
  case value predicate =>
    obtain ⟨value, -, rfl⟩ := Option.map_eq_some_iff.1 h
    constructor <;> simp [uses, links, producing]
  case neq other => simp [Property.writer?] at h
  all_goals
    cases h
    constructor <;> simp [uses, links, producing, linking]

theorem regular_of_mem_writers {s : Statement} {w : Writer} (h : w ∈ s.writers) : w.Regular := by
  obtain ⟨t, -, h⟩ := List.mem_flatMap.1 h
  obtain ⟨p, -, hp⟩ := List.mem_filterMap.1 h
  exact regular_of_writer? hp

end Writer

theorem WriteM.run_ofStore {α : Type} (m : StoreM α) (s : Store) :
    (WriteM.ofStore m).run.run s = ((m.run.run s).1.mapError .refused, (m.run.run s).2) := by
  rw [WriteM.ofStore, ExceptT.run_adapt]
  rfl

theorem Draft.build_spec (d : Draft) (v : Variable) (s : Store) :
    ⦃fun t => ⌜t = s⌝⦄ d.build v
    ⦃post⟨fun _ t => ⌜s.Evolves t⌝,
      fun e t => ⌜s.Evolves t ∧ ∀ u, e ≠ .unboundRequirement u⌝⟩⦄ := by
  have hdefine l upper value := Store.evolves_spec (s := s) (.defineType l upper value) rfl
  have hput type value := Store.evolves_spec (s := s) (.putAttribute type value) rfl
  have hinsert type := Store.evolves_spec (s := s) (.insertMember type) rfl
  mvcgen [build, WriteM.ofStore, hdefine, hput, hinsert, Store.contains_spec]
    with grind [Store.Evolves.refl]

/-- That a draft is built to a concept at some time between two stores. -/
def Draft.Yields (d : Draft) (v : Variable) (start t : Store) (id : ConceptId) : Prop :=
  ∃ before after, start.Evolves before ∧ (d.build v).run.run before = (.ok id, after) ∧
    after.Evolves t

theorem Draft.Yields.evolves {d : Draft} {v : Variable} {start t u : Store} {id : ConceptId}
    (h : d.Yields v start t id) (ht : t.Evolves u) : d.Yields v start u id := by
  obtain ⟨before, after, hbefore, hbuild, hafter⟩ := h
  exact ⟨before, after, hbefore, hbuild, hafter.trans ht⟩

namespace Execute

variable {α β : Type}

theorem run_bind (m : Execute α) (f : α → Execute β) (x : Execution) :
    (m >>= f).run.run x = match m.run.run x with
      | (.ok a, y) => (f a).run.run y
      | (.error e, y) => (.error e, y) := by
  rw [ExceptT.run_bind, StateT.run_bind]
  rcases m.run.run x with ⟨e | a, y⟩ <;> rfl

/-- From `x` a step ends where `Q` holds, or it fails for another reason than that a variable has no
concept, with its trace in order. -/
def Leads (ws : List Writer) (given : Answer) (x : Execution) (m : Execute α)
    (Q : α → Execution → Prop) : Prop :=
  match m.run.run x with
  | (.ok a, y) => Q a y
  | (.error e, y) => Orderly ws given y.trace.toList ∧ ∀ v, e ≠ .unboundRequirement v

variable {ws : List Writer} {given : Answer} {x : Execution} {m : Execute α} {f : α → Execute β}
  {Q : α → Execution → Prop} {R : β → Execution → Prop}

theorem Leads.of_ok (h : Leads ws given x m Q) {a : α} {y : Execution}
    (hm : m.run.run x = (.ok a, y)) : Q a y := by
  rwa [Leads, hm] at h

theorem Leads.of_error (h : Leads ws given x m Q) {e : WriteError} {y : Execution}
    (hm : m.run.run x = (.error e, y)) :
    Orderly ws given y.trace.toList ∧ ∀ v, e ≠ .unboundRequirement v := by
  rwa [Leads, hm] at h

theorem Leads.bind (h : Leads ws given x m Q) (hf : ∀ a y, Q a y → Leads ws given y (f a) R) :
    Leads ws given x (m >>= f) R := by
  rw [Leads, run_bind]
  rcases hm : m.run.run x with ⟨e | a, y⟩
  · exact h.of_error hm
  · exact hf a y (h.of_ok hm)

theorem Leads.mono {Q' : α → Execution → Prop} (h : Leads ws given x m Q)
    (hQ : ∀ a y, Q a y → Q' a y) : Leads ws given x m Q' := by
  rw [Leads]
  rcases hm : m.run.run x with ⟨e | a, y⟩
  · exact h.of_error hm
  · exact hQ a y (h.of_ok hm)

end Execute

namespace Execution

/-- What is bound in one state is bound in the other, and no edge is lost. -/
structure Extends (x y : Execution) : Prop where
  concepts : ∀ v id, x.concepts.get? v = some id → y.concepts.get? v = some id
  store : x.store.Extends y.store

theorem Extends.refl (x : Execution) : x.Extends x := ⟨fun _ _ h => h, .refl _⟩

theorem Extends.trans {x y z : Execution} (h : x.Extends y) (k : y.Extends z) : x.Extends z :=
  ⟨fun v id hv => k.concepts v id (h.concepts v id hv), h.store.trans k.store⟩

theorem Extends.contains {x y : Execution} (h : x.Extends y) {v : Variable}
    (hv : x.concepts.contains v = true) : y.concepts.contains v = true := by
  obtain ⟨id, hid⟩ := SortedMap.contains_iff.1 hv
  exact SortedMap.contains_iff.2 ⟨id, h.concepts v id hid⟩

/-- The edges that a linking writer writes are there. -/
def Linked (x : Execution) (w : Writer) : Prop :=
  match w.action with
  | .has owned => ∃ owner attr, x.concepts.get? w.var = some owner ∧
      x.concepts.get? owned = some attr ∧ x.store.Owns owner attr
  | .rolePlayers players => ∃ relation, x.concepts.get? w.var = some relation ∧
      ∀ rp ∈ players, ∃ player, x.concepts.get? rp.player = some player ∧
        x.store.HasEdge relation rp.role player
  | _ => True

theorem Extends.linked {x y : Execution} (h : x.Extends y) {w : Writer} (hw : x.Linked w) :
    y.Linked w := by
  rw [Linked] at hw ⊢
  split at hw
  · obtain ⟨owner, attr, howner, hattr, howns⟩ := hw
    exact ⟨owner, attr, h.concepts _ _ howner, h.concepts _ _ hattr, h.store.owns howns⟩
  · obtain ⟨relation, hrelation, hplayers⟩ := hw
    refine ⟨relation, h.concepts _ _ hrelation, fun rp hrp => ?_⟩
    obtain ⟨player, hplayer, hedge⟩ := hplayers rp hrp
    exact ⟨player, h.concepts _ _ hplayer, h.store.hasEdge hedge⟩
  · trivial

/-- The writers of `done` have been applied in this state of an insert that started from a store
with some concepts given. -/
structure Drafted (given : Answer) (start : Store) (done : List Writer) (x : Execution) :
    Prop where
  evolves : start.Evolves x.store
  kept : ∀ v id, given.get? v = some id → x.concepts.get? v = some id
  drafts : ∀ v, x.drafts.contains v = true ↔ ∃ w ∈ done, v ∈ w.produced
  concepts : ∀ v, x.concepts.contains v = true ↔
    given.contains v = true ∨ makes v ∈ x.trace.toList
  built : ∀ v id, given.get? v = none → x.concepts.get? v = some id →
    ∃ d, x.drafts.get? v = some d ∧ d.Yields v start x.store id
  linked : ∀ w ∈ done, x.Linked w

/-- The writers of `done` have ended, and no concept has been made to which one of those left could
add. -/
structure Traced (ws : List Writer) (given : Answer) (done todo : List Writer) (x : Execution) :
    Prop where
  orderly : Orderly ws given x.trace.toList
  ended : x.trace.toList.filterMap ended? = done
  closed : ∀ v, makes v ∈ x.trace.toList → ∀ w ∈ todo, v ∉ w.produced

/-- The variable has a concept, or all that is to be said about it has been said. -/
def Available (given : Answer) (done todo : List Writer) (v : Variable) : Prop :=
  given.contains v = true ∨ (∃ w ∈ done, v ∈ w.produced) ∧ ∀ w ∈ todo, v ∉ w.produced

variable {ws done todo : List Writer} {given : Answer} {start : Store} {x : Execution}
  {v : Variable}

theorem run_write {α : Type} (operation : WriteM α) (x : Execution) :
    (write operation).run.run x = ((operation.run.run x.store).1,
      { x with store := (operation.run.run x.store).2 }) := rfl

/-- The state in which the concept of a variable has been made, which has changed the store. -/
def withMade (x : Execution) (v : Variable) (id : ConceptId) (t : Store) : Execution :=
  { x with store := t, concepts := x.concepts.insert v id, trace := x.trace.push (makes v) }

theorem run_concept (v : Variable) (x : Execution) :
    (concept v).run.run x = match x.concepts.get? v, x.drafts.get? v with
      | some id, _ => (.ok id, x)
      | none, none => (.error (.unboundRequirement v), x)
      | none, some draft => match (draft.build v).run.run x.store with
        | (.ok id, t) => (.ok id, x.withMade v id t)
        | (.error e, t) => (.error e, { x with store := t, trace := x.trace.push (makes v) }) := by
  have hget : (get : Execute Execution).run.run x = (.ok x, x) := rfl
  rw [concept, Execute.run_bind, hget]
  dsimp only
  cases x.concepts.get? v with
  | some id => rfl
  | none =>
    cases x.drafts.get? v with
    | none => rfl
    | some draft =>
      dsimp only
      rw [Execute.run_bind]
      change (write (draft.build v) >>= _).run.run { x with trace := x.trace.push (makes v) } = _
      rw [Execute.run_bind, run_write]
      rcases (draft.build v).run.run x.store with ⟨e | id, t⟩ <;> rfl

theorem get?_withMade (x : Execution) (v : Variable) (id : ConceptId) (t : Store) (u : Variable) :
    (x.withMade v id t).concepts.get? u = if v = u then some id else x.concepts.get? u :=
  SortedMap.get?_insert ..

theorem mem_trace_withMade {event : ExecutionEvent} {id : ConceptId} {t : Store} :
    event ∈ (x.withMade v id t).trace.toList ↔ event ∈ x.trace.toList ∨ event = makes v := by
  rw [withMade, Array.toList_push, List.mem_append, List.mem_singleton]

/-- A concept is only made for a variable that has none, so the others keep theirs. -/
theorem get?_withMade_of_some (hnone : x.concepts.get? v = none) (id : ConceptId) (t : Store)
    {u : Variable} {other : ConceptId} (hu : x.concepts.get? u = some other) :
    (x.withMade v id t).concepts.get? u = some other := by
  have hne : v ≠ u := by
    rintro rfl
    simp [hnone] at hu
  rw [get?_withMade, if_neg hne, hu]

theorem extends_withMade (hnone : x.concepts.get? v = none) (id : ConceptId) {t : Store}
    (ht : x.store.Evolves t) : x.Extends (x.withMade v id t) :=
  ⟨fun _ _ hu => get?_withMade_of_some hnone id t hu, ht.extends⟩

theorem Drafted.withMade (hx : Drafted given start done x) (hnone : x.concepts.get? v = none)
    {draft : Draft} (hdraft : x.drafts.get? v = some draft) {id : ConceptId} {t : Store}
    (hbuild : (draft.build v).run.run x.store = (.ok id, t)) (ht : x.store.Evolves t) :
    Drafted given start done (x.withMade v id t) := by
  have hextends : x.Extends (x.withMade v id t) := extends_withMade hnone id ht
  refine ⟨hx.evolves.trans ht, ?_, hx.drafts, ?_, ?_, fun w hw => hextends.linked (hx.linked w hw)⟩
  · exact fun u other hu => hextends.concepts u other (hx.kept u other hu)
  · intro u
    rw [mem_trace_withMade, SortedMap.contains, get?_withMade]
    by_cases h : v = u
    · simp [h]
    · simpa [h, Ne.symm h, SortedMap.contains] using hx.concepts u
  · intro u other hnew hu
    rw [get?_withMade] at hu
    split at hu
    case isTrue heq =>
      subst heq
      cases hu
      exact ⟨draft, hdraft, x.store, t, hx.evolves, hbuild, .refl t⟩
    case isFalse =>
      obtain ⟨d, hd, hyields⟩ := hx.built u other hnew hu
      exact ⟨d, hd, hyields.evolves ht⟩

theorem Traced.withMade (ht : Traced ws given done todo x)
    (hfits : (makes v).Fits ws given x.trace.toList) (hclosed : ∀ w ∈ todo, v ∉ w.produced)
    (id : ConceptId) (t : Store) : Traced ws given done todo (x.withMade v id t) := by
  refine ⟨?_, by simp [Execution.withMade, ht.ended, ended?], fun u hu w hw => ?_⟩
  · rw [Execution.withMade, Array.toList_push]
    exact ht.orderly.concat hfits
  · rcases mem_trace_withMade.1 hu with hu | hu
    · exact ht.closed u hu w hw
    · cases hu
      exact hclosed w hw

theorem Drafted.write (hx : Drafted given start done x) {t : Store} (h : x.store.Evolves t) :
    Drafted given start done { x with store := t } := by
  have hextends : x.Extends { x with store := t } := ⟨fun _ _ hv => hv, h.extends⟩
  refine ⟨hx.evolves.trans h, hx.kept, hx.drafts, hx.concepts, fun v id hgiven hv => ?_,
    fun w hw => hextends.linked (hx.linked w hw)⟩
  obtain ⟨d, hd, hyields⟩ := hx.built v id hgiven hv
  exact ⟨d, hd, hyields.evolves h⟩

/-- A writer that contributes does so before the concept of its variable is made. -/
theorem Traced.get?_eq_none {w : Writer} {rest : List Writer}
    (ht : Traced ws given done (w :: rest) x) (hx : Drafted given start done x) (hw : w.Regular)
    (hlinks : w.links = false) (hgiven : given.get? w.var = none) :
    x.concepts.get? w.var = none := by
  rw [← SortedMap.not_contains_iff, hx.concepts]
  rintro (hcontains | hmade)
  · exact SortedMap.not_contains_iff.2 hgiven hcontains
  · exact ht.closed w.var hmade w List.mem_cons_self (by simp [hw.produced, hlinks])

theorem Drafted.contribute {w : Writer} {rest : List Writer} (hx : Drafted given start done x)
    (ht : Traced ws given done (w :: rest) x) (hw : w.Regular) (hlinks : w.links = false)
    (more : Draft → Draft) :
    Drafted given start (done ++ [w]) { x with drafts := x.drafts.update w.var {} more } := by
  refine ⟨hx.evolves, hx.kept, fun v => ?_, hx.concepts, fun v id hgiven hv => ?_,
    fun other hother => ?_⟩
  · have hproduced : v ∈ w.produced ↔ w.var = v := by simp [hw.produced, hlinks, eq_comm]
    rw [SortedMap.contains, SortedMap.get?_update]
    by_cases h : w.var = v
    · simp [h, hproduced]
    · simpa [h, hproduced, SortedMap.contains] using hx.drafts v
  · obtain ⟨d, hd, hyields⟩ := hx.built v id hgiven hv
    have hne : w.var ≠ v := by
      rintro rfl
      rw [ht.get?_eq_none hx hw hlinks hgiven] at hv
      cases hv
    exact ⟨d, by simpa [hne] using hd, hyields⟩
  · rcases List.mem_append.1 hother with hother | hother
    · exact hx.linked other hother
    · cases List.mem_singleton.1 hother
      rw [Linked]
      rw [Writer.links] at hlinks
      split <;> simp_all

theorem Drafted.link (hx : Drafted given start done x) {w : Writer} (hw : w.Regular)
    (hlinks : w.links = true) (hlinked : x.Linked w) :
    Drafted given start (done ++ [w]) x := by
  refine ⟨hx.evolves, hx.kept, fun v => ?_, hx.concepts, hx.built, fun other hother => ?_⟩
  · have hproduced : v ∉ w.produced := by simp [hw.produced, hlinks]
    simpa [hproduced] using hx.drafts v
  · rcases List.mem_append.1 hother with hother | hother
    · exact hx.linked other hother
    · cases List.mem_singleton.1 hother
      exact hlinked

theorem Drafted.record (hx : Drafted given start done x) {event : ExecutionEvent}
    (hevent : ∀ v, event ≠ makes v) :
    Drafted given start done { x with trace := x.trace.push event } := by
  refine ⟨hx.evolves, hx.kept, hx.drafts, fun v => ?_, hx.built, hx.linked⟩
  simpa [(hevent v).symm] using hx.concepts v

theorem Traced.starts {w : Writer} {rest : List Writer}
    (ht : Traced ws given done (w :: rest) x) :
    Traced ws given done (w :: rest) { x with trace := x.trace.push (starts w) } := by
  refine ⟨?_, ?_, fun v hv => ?_⟩
  · rw [Array.toList_push]
    exact ht.orderly.concat fun v hv => ht.closed v hv w List.mem_cons_self
  · simp [ht.ended, ended?]
  · rw [Array.toList_push, List.mem_append, List.mem_singleton] at hv
    exact ht.closed v (hv.resolve_right (by simp))

theorem Traced.ends {w : Writer} {rest : List Writer} (ht : Traced ws given done (w :: rest) x) :
    Traced ws given (done ++ [w]) rest { x with trace := x.trace.push (ends w) } := by
  refine ⟨?_, ?_, fun v hv other hother => ?_⟩
  · rw [Array.toList_push]
    exact ht.orderly.concat fun v hv => ht.closed v hv w List.mem_cons_self
  · simp [ht.ended, ended?]
  · rw [Array.toList_push, List.mem_append, List.mem_singleton] at hv
    exact ht.closed v (hv.resolve_right (by simp)) other (List.mem_cons_of_mem _ hother)

/-- Writers can be applied one after the other: what one requires is available by then. -/
structure Runnable (ws : List Writer) (given : Answer) : Prop where
  regular : ∀ w ∈ ws, w.Regular
  ready : ∀ done w todo, ws = done ++ w :: todo →
    ∀ v ∈ w.required, Available given done (w :: todo) v

end Execution

theorem InsertPlan.find?_unbound {plan : InsertPlan} {given : Answer}
    (hbound : ∀ v ∈ plan.bound, given.contains v = true) :
    plan.bound.toList.find? (!SortedMap.contains given ·) = none := by
  simpa [List.find?_eq_none] using hbound

end GraphQuery
