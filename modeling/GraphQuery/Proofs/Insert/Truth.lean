import GraphQuery.Proofs.Insert.Contribution
import GraphQuery.Proofs.Insert.Creation

/-!
# Inserts make patterns true

While an insert is carried out, each draft says what the writers that have been applied say, and the
facts of the draft that count are true of the concept that is made from it. Main statement: after an
insert that succeeds, what the pattern says of a new variable is true of its concept, unless the
pattern says something else that counts instead (`Pattern.insertPlan_trueIn`). A number or a label is
followed without regard to the type that the pattern gives (`Pattern.insertPlan_overrules`).
-/

namespace GraphQuery

namespace Execute

variable {α β : Type} {x : Execution} {m : Execute α} {f : α → Execute β}
  {Q : α → Execution → Prop} {R : β → Execution → Prop}

/-- From `x` a step ends where `Q` holds, if it does not fail. -/
def Ends (x : Execution) (m : Execute α) (Q : α → Execution → Prop) : Prop :=
  match m.run.run x with
  | (.ok a, y) => Q a y
  | (.error _, _) => True

theorem ends_iff : Ends x m Q ↔ ∀ a y, m.run.run x = (.ok a, y) → Q a y := by
  rw [Ends]
  rcases m.run.run x with ⟨e | a, y⟩
  · refine ⟨fun _ a z h => ?_, fun _ => trivial⟩
    cases h
  · refine ⟨fun hQ b z h => ?_, fun h => h a y rfl⟩
    cases h
    exact hQ

theorem ends_modify {g : Execution → Execution} {Q : PUnit → Execution → Prop} (h : Q ⟨⟩ (g x)) :
    Ends x (modify g) Q := h

theorem Ends.bind (h : Ends x m Q) (hf : ∀ a y, Q a y → Ends y (f a) R) : Ends x (m >>= f) R := by
  rw [Ends, run_bind]
  rcases hm : m.run.run x with ⟨e | a, y⟩
  · trivial
  · exact hf a y (ends_iff.1 h a y hm)

theorem Ends.mono {Q' : α → Execution → Prop} (h : Ends x m Q) (hQ : ∀ a y, Q a y → Q' a y) :
    Ends x m Q' :=
  ends_iff.2 fun a y hm => hQ a y (ends_iff.1 h a y hm)

end Execute

namespace Execution

/-- The writers of `done` have been applied in this state of an insert with some concepts given:
drafts say what these writers say, one thing of each kind, and concepts are what their drafts say. A
concept is only made once no writer of `todo` has anything to say of it. -/
structure Told (given : Answer) (done todo : List Writer) (x : Execution) : Prop where
  reachable : x.store.Reachable
  kept : ∀ v id, given.get? v = some id → x.concepts.get? v = some id
  told : ∀ w ∈ done, w.links = false → ∃ fact d, w.fact? x.concepts = some fact ∧
    x.drafts.get? w.var = some d ∧ ∃ other, d.Says other ∧ other.kind = fact.kind
  said : ∀ v d, x.drafts.get? v = some d → ∀ fact, d.Says fact →
    ∃ w ∈ done, w.var = v ∧ w.fact? x.concepts = some fact
  made : ∀ v id, given.get? v = none → x.concepts.get? v = some id →
    (∀ w ∈ todo, w.links = false → w.var ≠ v) ∧
      ∃ d, x.drafts.get? v = some d ∧ d.Describes x.store id

/-- More concepts have been made, and nothing has been said. -/
structure Completes (x y : Execution) : Prop where
  concepts : ∀ v id, x.concepts.get? v = some id → y.concepts.get? v = some id
  drafts : y.drafts = x.drafts

theorem Completes.refl (x : Execution) : x.Completes x := ⟨fun _ _ h => h, rfl⟩

theorem Completes.trans {x y z : Execution} (h : x.Completes y) (k : y.Completes z) :
    x.Completes z :=
  ⟨fun v id hv => k.concepts v id (h.concepts v id hv), k.drafts.trans h.drafts⟩

/-- Nothing is left to be said of the variable, unless its concept is given. -/
def Settled (given : Answer) (todo : List Writer) (v : Variable) : Prop :=
  given.get? v = none → ∀ w ∈ todo, w.links = false → w.var ≠ v

variable {given : Answer} {done todo : List Writer} {x : Execution} {v : Variable}

theorem Told.evolves (hx : Told given done todo x) {t : Store} (h : x.store.Evolves t) :
    Told given done todo { x with store := t } := by
  refine ⟨hx.reachable.trans h, hx.kept, hx.told, hx.said, fun v id hgiven hv => ?_⟩
  obtain ⟨htodo, d, hd, hdescribes⟩ := hx.made v id hgiven hv
  exact ⟨htodo, d, hd, hdescribes.evolves h⟩

/-- A concept is made from the draft for it. -/
theorem Told.withMade (hx : Told given done todo x) (hv : Settled given todo v)
    (hnew : x.concepts.get? v = none) {d : Draft} (hd : x.drafts.get? v = some d) {id : ConceptId}
    {t : Store} (ht : x.store.Evolves t) (hid : d.Describes t id) :
    Told given done todo (x.withMade v id t) := by
  have hmore : ∀ u other, x.concepts.get? u = some other →
      (x.withMade v id t).concepts.get? u = some other :=
    fun _ _ hu => get?_withMade_of_some hnew id t hu
  have hx := hx.evolves ht
  refine ⟨hx.reachable, fun u other hu => hmore u other (hx.kept u other hu), ?_, ?_, ?_⟩
  · intro w hw hlinks
    obtain ⟨fact, draft, hfact, hrest⟩ := hx.told w hw hlinks
    exact ⟨fact, draft, Writer.fact?_mono hmore hfact, hrest⟩
  · intro u draft hu fact hfact
    obtain ⟨w, hw, hvar, hsaid⟩ := hx.said u draft hu fact hfact
    exact ⟨w, hw, hvar, Writer.fact?_mono hmore hsaid⟩
  · intro u other hgiven hu
    rw [get?_withMade] at hu
    split at hu
    case isTrue heq =>
      subst heq
      cases hu
      exact ⟨hv hgiven, d, hd, hid⟩
    case isFalse => exact hx.made u other hgiven hu

theorem concept_ends (hx : Told given done todo x) (hv : Settled given todo v) :
    Execute.Ends x (concept v) fun id y =>
      Told given done todo y ∧ x.Completes y ∧ y.concepts.get? v = some id := by
  rw [Execute.Ends, run_concept]
  cases hc : x.concepts.get? v with
  | some known => exact ⟨hx, .refl x, hc⟩
  | none =>
    cases hd : x.drafts.get? v with
    | none => trivial
    | some draft =>
      have hevolves := triple_iff_run.1 (draft.build_spec v x.store) _ rfl
      have hdescribes := triple_iff_run.1 (draft.build_describes hx.reachable v) _ rfl
      dsimp only
      rcases hbuild : (draft.build v).run.run x.store with ⟨e | id, t⟩
      · trivial
      · rw [hbuild] at hevolves hdescribes
        exact ⟨hx.withMade hv hc hd hevolves hdescribes,
          ⟨fun _ _ hu => get?_withMade_of_some hc id t hu, rfl⟩, by simp [get?_withMade]⟩

theorem Told.contribute {w : Writer} {rest : List Writer} (hx : Told given done (w :: rest) x)
    {fact : Fact} (hw : w.fact? x.concepts = some fact) :
    Told given (done ++ [w]) rest
      { x with drafts := x.drafts.update w.var {} (·.tell fact) } := by
  have hlinks := Writer.links_eq_false_of_fact? hw
  have hother {v : Variable} (h : w.var ≠ v) :
      (x.drafts.update w.var {} (·.tell fact)).get? v = x.drafts.get? v := by simp [h]
  have hself : (x.drafts.update w.var {} (·.tell fact)).get? w.var =
      some (((x.drafts.get? w.var).getD {}).tell fact) := by simp
  refine ⟨hx.reachable, hx.kept, fun p hp hplinks => ?_, fun v d hd said hsaid => ?_,
    fun v id hgiven hv => ?_⟩
  · rcases List.mem_append.1 hp with hp | hp
    · obtain ⟨known, d, hknown, hd, other, hother', hkind⟩ := hx.told p hp hplinks
      by_cases hvar : w.var = p.var
      · refine ⟨known, d.tell fact, hknown, ?_, ?_⟩
        · rw [← hvar, hself, hvar, hd]
          rfl
        · by_cases hfact : other.kind = fact.kind
          · exact ⟨fact, Draft.says_tell.2 (.inl rfl), hfact.symm.trans hkind⟩
          · exact ⟨other, Draft.says_tell.2 (.inr ⟨hfact, hother'⟩), hkind⟩
      · exact ⟨known, d, hknown, (hother hvar).trans hd, other, hother', hkind⟩
    · rw [List.mem_singleton.1 hp]
      exact ⟨fact, _, hw, hself, fact, Draft.says_tell.2 (.inl rfl), rfl⟩
  · have hold {d : Draft} (hd : x.drafts.get? v = some d) (hsaid : d.Says said) :
        ∃ p ∈ done ++ [w], p.var = v ∧ p.fact? x.concepts = some said := by
      obtain ⟨p, hp, hvar, hfact⟩ := hx.said v d hd said hsaid
      exact ⟨p, List.mem_append_left _ hp, hvar, hfact⟩
    by_cases hvar : w.var = v
    · subst hvar
      cases hself.symm.trans hd
      rcases Draft.says_tell.1 hsaid with rfl | ⟨-, hsaid⟩
      · exact ⟨w, by simp, rfl, hw⟩
      · cases hknown : x.drafts.get? w.var with
        | none =>
          rw [hknown] at hsaid
          exact absurd hsaid (Draft.not_says_empty said)
        | some d =>
          rw [hknown] at hsaid
          exact hold hknown hsaid
    · exact hold ((hother hvar).symm.trans hd) hsaid
  · obtain ⟨htodo, d, hd, hdescribes⟩ := hx.made v id hgiven hv
    -- The draft of a concept that has been made is not the one that is added to.
    have hvar : w.var ≠ v := htodo w List.mem_cons_self hlinks
    exact ⟨fun p hp => htodo p (List.mem_cons_of_mem _ hp), d, (hother hvar).trans hd, hdescribes⟩

theorem Told.link {w : Writer} {rest : List Writer} (hx : Told given done (w :: rest) x)
    (hlinks : w.links = true) : Told given (done ++ [w]) rest x := by
  refine ⟨hx.reachable, hx.kept, fun p hp hplinks => ?_, fun v d hd fact hfact => ?_,
    fun v id hgiven hv => ?_⟩
  · rcases List.mem_append.1 hp with hp | hp
    · exact hx.told p hp hplinks
    · rw [List.mem_singleton.1 hp, hlinks] at hplinks
      cases hplinks
  · obtain ⟨p, hp, hsaid⟩ := hx.said v d hd fact hfact
    exact ⟨p, List.mem_append_left _ hp, hsaid⟩
  · obtain ⟨htodo, hdraft⟩ := hx.made v id hgiven hv
    exact ⟨fun p hp => htodo p (List.mem_cons_of_mem _ hp), hdraft⟩

theorem write_ends {α : Type} {m : StoreM α} (op : Store.Operation)
    (hop : (m.run.run x.store).2 = op.run x.store) (hx : Told given done todo x) :
    Execute.Ends x (write (.ofStore m)) fun _ y => Told given done todo y := by
  have hstore : ((WriteM.ofStore m).run.run x.store).2 = op.run x.store := by
    rw [WriteM.run_ofStore, hop]
  rw [Execute.ends_iff, run_write, hstore]
  intro a y hrun
  cases (Prod.mk.inj hrun).2
  exact hx.evolves (op.evolves x.store)

theorem players_ends (relation : ConceptId) (players : List RolePlayer)
    (hplayers : ∀ rp ∈ players, Settled given todo rp.player) (hx : Told given done todo x) :
    Execute.Ends x
      (players.forM fun rp => do
        let player ← concept rp.player
        write (.ofStore (Store.addRolePlayer relation rp.role player)))
      fun _ y => Told given done todo y := by
  induction players generalizing x with
  | nil => exact hx
  | cons rp rest ih =>
    rw [List.forall_mem_cons] at hplayers
    have hplayer : Execute.Ends x
        (do
          let player ← concept rp.player
          write (.ofStore (Store.addRolePlayer relation rp.role player)))
        fun _ y => Told given done todo y := by
      apply (concept_ends hx hplayers.1).bind
      rintro player y ⟨hy, -, -⟩
      exact write_ends (.addRolePlayer relation rp.role player) rfl hy
    apply hplayer.bind
    intro _ y hy
    exact ih hplayers.2 hy

theorem apply_ends {w : Writer} {rest : List Writer} (hx : Told given done (w :: rest) x)
    (huses : ∀ v ∈ w.uses, Settled given (w :: rest) v) :
    Execute.Ends x (apply w) fun _ y => Told given (done ++ [w]) rest y := by
  obtain ⟨var, property, required, produced, action⟩ := w
  cases action with
  | isa type =>
    apply (concept_ends hx (huses type List.mem_cons_self)).bind
    rintro id y ⟨hy, -, hid⟩
    have hsays : Fact.type id ∈ (y.concepts.get? type).map Fact.type := by simp [hid]
    exact Execute.ends_modify (hy.contribute hsays)
  | sub superType =>
    apply (concept_ends hx (huses superType List.mem_cons_self)).bind
    rintro id y ⟨hy, -, hid⟩
    have hsays : Fact.superType id ∈ (y.concepts.get? superType).map Fact.superType := by simp [hid]
    exact Execute.ends_modify (hy.contribute hsays)
  | label l => exact Execute.ends_modify (hx.contribute (rfl : _ = some (Fact.label l)))
  | id number => exact Execute.ends_modify (hx.contribute (rfl : _ = some (Fact.id number)))
  | dataType v => exact Execute.ends_modify (hx.contribute (rfl : _ = some (Fact.valueType v)))
  | value v => exact Execute.ends_modify (hx.contribute (rfl : _ = some (Fact.value v)))
  | has owned =>
    apply (concept_ends hx (huses var List.mem_cons_self)).bind
    rintro owner y ⟨hy, -, -⟩
    apply (concept_ends hy (huses owned (by simp [Writer.uses]))).bind
    rintro attr z ⟨hz, -, -⟩
    exact (write_ends (.addHas owner attr) rfl hz).mono fun _ _ h => h.link rfl
  | rolePlayers players =>
    apply (concept_ends hx (huses var List.mem_cons_self)).bind
    rintro relation y ⟨hy, -, -⟩
    refine (players_ends relation players (fun rp hrp => ?_) hy).mono fun _ _ h => h.link rfl
    exact huses rp.player (List.mem_cons_of_mem _ (List.mem_map_of_mem hrp))

theorem record_ends (hx : Told given done todo x) (event : ExecutionEvent) :
    Execute.Ends x (record event) fun _ y => Told given done todo y :=
  Execute.ends_modify ⟨hx.reachable, hx.kept, hx.told, hx.said, hx.made⟩

theorem step_ends {w : Writer} {rest : List Writer} (hx : Told given done (w :: rest) x)
    (huses : ∀ v ∈ w.uses, Settled given (w :: rest) v) :
    Execute.Ends x (step w) fun _ y => Told given (done ++ [w]) rest y := by
  apply (record_ends hx (.starts w)).bind
  intro _ y hy
  apply (apply_ends hy huses).bind
  intro _ z hz
  exact record_ends hz (.ends w)

theorem Runnable.settled {ws : List Writer} (h : Runnable ws given) {w : Writer}
    {rest : List Writer} (hws : ws = done ++ w :: rest) :
    ∀ v ∈ w.uses, Settled given (w :: rest) v := by
  intro v hv hgiven p hp hlinks hvar
  have hw : w ∈ ws := by simp [hws]
  have hmem : p ∈ ws := by
    rw [hws]
    exact List.mem_append_right _ hp
  rcases h.ready done w rest hws v ((h.regular w hw).required v hv) with hcontains | ⟨-, hnone⟩
  · exact absurd hcontains (SortedMap.not_contains_iff.2 hgiven)
  · exact hnone p hp ((h.regular p hmem).mem_produced.2 ⟨hlinks, hvar⟩)

theorem run_ends {ws : List Writer} (hrun : Runnable ws given) (hws : ws = done ++ todo)
    (hx : Told given done todo x) :
    Execute.Ends x (todo.forM step) fun _ y => Told given ws [] y := by
  induction todo generalizing done x with
  | nil =>
    rw [List.append_nil] at hws
    exact hws ▸ hx
  | cons w rest ih =>
    apply (step_ends hx (hrun.settled hws)).bind
    intro _ y hy
    exact ih (by rw [hws, List.append_assoc, List.singleton_append]) hy

theorem concepts_ends {ws : List Writer} (vs : List Variable) (hx : Told given ws [] x) :
    Execute.Ends x (vs.forM fun v => discard (concept v)) fun _ y =>
      Told given ws [] y ∧ x.Completes y ∧ ∀ v ∈ vs, y.concepts.contains v = true := by
  induction vs generalizing x with
  | nil => exact ⟨hx, .refl x, by simp⟩
  | cons v rest ih =>
    have hconcept : Execute.Ends x (discard (concept v)) fun _ y =>
        Told given ws [] y ∧ x.Completes y ∧ y.concepts.contains v = true := by
      have hdiscard : discard (concept v) = concept v >>= fun _ => pure ⟨⟩ := rfl
      rw [hdiscard]
      apply (concept_ends hx (by simp [Settled])).bind
      rintro id y ⟨hy, hxy, hid⟩
      exact ⟨hy, hxy, SortedMap.contains_iff.2 ⟨id, hid⟩⟩
    apply hconcept.bind
    rintro - y ⟨hy, hxy, hv⟩
    apply (ih hy).mono
    rintro - z ⟨hz, hyz, hrest⟩
    refine ⟨hz, hxy.trans hyz, List.forall_mem_cons.2 ⟨?_, hrest⟩⟩
    obtain ⟨id, hid⟩ := SortedMap.contains_iff.1 hv
    exact SortedMap.contains_iff.2 ⟨id, hyz.concepts v id hid⟩

/-- In the end each draft has its concept. -/
theorem finish_ends {ws : List Writer} (hx : Told given ws [] x) :
    Execute.Ends x finish fun _ y =>
      Told given ws [] y ∧ ∀ v, y.drafts.contains v = true → y.concepts.contains v = true := by
  apply (concepts_ends x.pending hx).mono
  rintro - y ⟨hy, hxy, hpending⟩
  refine ⟨hy, fun v hv => ?_⟩
  rw [hxy.drafts] at hv
  cases hc : x.concepts.get? v with
  | some id => exact SortedMap.contains_iff.2 ⟨id, hxy.concepts v id hc⟩
  | none =>
    refine hpending v (List.mem_filter.2 ⟨SortedMap.mem_keys_iff.2 hv, ?_⟩)
    simp [SortedMap.contains, hc]

end Execution

namespace InsertPlan

variable {plan : InsertPlan} {given : Answer} {start : Store}

/-- A plan is only carried out if the answer binds what the plan takes to be bound. -/
theorem bound_of_run {answer : Answer} {y : Execution}
    (h : plan.run given start = (.ok answer, y)) : ∀ v ∈ plan.bound, given.contains v = true := by
  cases hfind : plan.bound.toList.find? (!SortedMap.contains given ·) with
  | none => simpa [List.find?_eq_none] using hfind
  | some v =>
    rw [run, steps, hfind] at h
    cases h

theorem run_told (hrun : Execution.Runnable (plan.applied given) given) (hstart : start.Reachable)
    {answer : Answer} {y : Execution} (h : plan.run given start = (.ok answer, y)) :
    answer = y.concepts ∧ Execution.Told given (plan.applied given) [] y ∧
      ∀ v, y.drafts.contains v = true → y.concepts.contains v = true := by
  have hx : Execution.Told given [] (plan.applied given) ⟨start, given, .empty, #[]⟩ :=
    ⟨hstart, fun _ _ h => h, by simp, by simp, fun v id hnone hsome => by simp [hnone] at hsome⟩
  have hsteps : Execute.Ends ⟨start, given, .empty, #[]⟩ (plan.steps given) fun answer y =>
      answer = y.concepts ∧ Execution.Told given (plan.applied given) [] y ∧
        ∀ v, y.drafts.contains v = true → y.concepts.contains v = true := by
    rw [steps, find?_unbound (bound_of_run h)]
    apply (Execution.run_ends hrun (List.nil_append _).symm hx).bind
    intro _ y hy
    apply (Execution.finish_ends hy).bind
    rintro - z hz
    exact ⟨rfl, hz⟩
  exact Execute.ends_iff.1 hsteps answer y h

end InsertPlan

/-- Of all that is said of a variable the fact counts: nothing else comes before it. -/
def Fact.Counts (facts : List Fact) (fact : Fact) : Prop := ∀ other ∈ facts, fact.rank ≤ other.rank

/-- The type that a property of an instance or of a type refers to. -/
def Property.typeRef? : Property → Option TypeRef
  | .isa type _ | .sub type _ => some type
  | .label _ | .id _ | .dataType _ | .has .. | .relation _ | .value _ | .neq _ => none

namespace Pattern

/-- What a pattern says of a variable, given the concepts of an answer. -/
def facts (p : Pattern) (answer : Answer) (v : Variable) : List Fact :=
  ((p.statements.flatMap (·.withInner)).filter (·.var = v)).flatMap fun s =>
    s.properties.filterMap (·.fact? answer)

/-- What the statements of a pattern and those that they carry say of variables that were not given
is true of the concepts that an answer has for them, as far as it counts. Where a pattern says
several things of one kind of a variable, one of them is true, so all are if they are the same. -/
structure TrueIn (p : Pattern) (given answer : Answer) (t : Store) : Prop where
  bound : ∀ s ∈ p.statements.flatMap (·.withInner), answer.contains s.var = true
  typesBound : ∀ s ∈ p.statements.flatMap (·.withInner), ∀ q ∈ s.properties,
    ∀ type ∈ q.typeRef?, answer.contains type.var = true
  facts : ∀ v concept, given.get? v = none → answer.get? v = some concept →
    ∀ fact ∈ p.facts answer v, fact.Counts (p.facts answer v) →
      ∃ kept ∈ p.facts answer v, kept.kind = fact.kind ∧ kept.Holds t concept

theorem mem_facts {p : Pattern} {answer : Answer} {v : Variable} {fact : Fact} :
    fact ∈ p.facts answer v ↔ ∃ s ∈ p.statements.flatMap (·.withInner), s.var = v ∧
      ∃ q ∈ s.properties, q.fact? answer = some fact := by
  simp only [Pattern.facts, List.mem_flatMap, List.mem_filter, List.mem_filterMap,
    decide_eq_true_eq, and_assoc]

theorem mem_facts_of_mem_writers {p : Pattern} {answer : Answer} {w : Writer} {fact : Fact}
    (hw : w ∈ p.statements.flatMap (·.writers)) (hfact : w.fact? answer = some fact) :
    fact ∈ p.facts answer w.var := by
  obtain ⟨r, hr, hw⟩ := List.mem_flatMap.1 hw
  obtain ⟨s, hs, hw⟩ := List.mem_flatMap.1 hw
  obtain ⟨q, hq, hwriter⟩ := List.mem_filterMap.1 hw
  obtain ⟨hvar, hsame⟩ := Writer.fact?_of_writer? answer hwriter
  exact mem_facts.2 ⟨s, List.mem_flatMap.2 ⟨r, hr, hs⟩, hvar.symm, q, hq, hsame ▸ hfact⟩

section Told

variable {p : Pattern} {plan : InsertPlan} {given : Answer} {y : Execution}
  (hplanned : p.Planned plan) (hgiven : ∀ v ∈ plan.bound, given.contains v = true)
  (hy : Execution.Told given (plan.applied given) [] y)

include hplanned

theorem mem_applied_of_not_given {w : Writer} {v : Variable} (hw : w ∈ plan.writers)
    (hv : v ∈ w.produced) (hnew : given.get? v = none) : w ∈ plan.applied given := by
  have hnew : ¬given.contains v = true := SortedMap.not_contains_iff.2 hnew
  exact InsertPlan.mem_applied.2 ⟨(InsertPlan.ordered_perm hplanned.topological).mem_iff.2 hw,
    InsertPlan.isSettled_eq_false hv hnew⟩

include hgiven hy

theorem contains_of_supplied (hdrafts : ∀ v, y.drafts.contains v = true → y.concepts.contains v = true)
    {v : Variable} (hv : Writer.Supplied plan.writers plan.bound v) :
    y.concepts.contains v = true := by
  cases hnew : given.get? v with
  | some id => exact SortedMap.contains_iff.2 ⟨id, hy.kept v id hnew⟩
  | none =>
    rcases hv with hv | ⟨w, hw, hv⟩
    · exact absurd (hgiven v hv) (SortedMap.not_contains_iff.2 hnew)
    · obtain ⟨hlinks, rfl⟩ := (hplanned.regular w hw).mem_produced.1 hv
      obtain ⟨-, d, -, hd, -⟩ :=
        hy.told w (mem_applied_of_not_given hplanned hw hv hnew) hlinks
      exact hdrafts w.var (SortedMap.contains_iff.2 ⟨d, hd⟩)

omit hgiven in
theorem holds_of_counts {v : Variable} {concept : ConceptId} (hnew : given.get? v = none)
    (hconcept : y.concepts.get? v = some concept) {fact : Fact} (hfact : fact ∈ p.facts y.concepts v)
    (hcounts : fact.Counts (p.facts y.concepts v)) :
    ∃ kept ∈ p.facts y.concepts v, kept.kind = fact.kind ∧ kept.Holds y.store concept := by
  obtain ⟨-, d, hd, hdescribes⟩ := hy.made v concept hnew hconcept
  -- Whatever the draft says, a writer of the pattern has said.
  have hsaid : ∀ other, d.Says other → other ∈ p.facts y.concepts v := by
    intro other hother
    obtain ⟨w, hw, rfl, hwriter⟩ := hy.said v d hd other hother
    have hmem : w ∈ plan.writers :=
      (InsertPlan.ordered_perm hplanned.topological).mem_iff.1 (InsertPlan.mem_applied.1 hw).1
    exact mem_facts_of_mem_writers (hplanned.writers ▸ hmem) hwriter
  -- The draft says something of the kind, for the writer of the fact has been applied.
  have hsays : ∃ kept, d.Says kept ∧ kept.kind = fact.kind := by
    obtain ⟨s, hs, hvar, q, hq, hq'⟩ := mem_facts.1 hfact
    obtain ⟨w, hw⟩ := Writer.exists_writer?_of_fact? s.var hq'
    obtain ⟨hwvar, hsame⟩ := Writer.fact?_of_writer? y.concepts hw
    have hmem : w ∈ plan.writers := hplanned.writers ▸ mem_writers hs hq hw
    have hlinks : w.links = false := Writer.links_eq_false_of_fact? (hsame.trans hq')
    have hproduced : v ∈ w.produced :=
      (hplanned.regular w hmem).mem_produced.2 ⟨hlinks, hwvar.trans hvar⟩
    obtain ⟨known, e, hknown, he, kept, hkept, hkind⟩ :=
      hy.told w (mem_applied_of_not_given hplanned hmem hproduced hnew) hlinks
    cases (hsame.trans hq').symm.trans hknown
    rw [hwvar, hvar, hd] at he
    cases he
    exact ⟨kept, hkept, hkind⟩
  obtain ⟨kept, hkept, hkind⟩ := hsays
  refine ⟨kept, hsaid kept hkept, hkind, hdescribes kept hkept fun other hother => ?_⟩
  rw [Fact.rank_eq_of_kind_eq hkind]
  exact hcounts other (hsaid other hother)

end Told

/-- What a pattern that is inserted says of new variables is true of their concepts, as far as it
counts. -/
theorem insertPlan_trueIn {p : Pattern} {bound : SortedSet Variable} {plan : InsertPlan}
    {given answer : Answer} {start t : Store} (hplan : p.insertPlan bound = .ok plan)
    (hstart : start.Reachable) (hrun : (plan.execute given).run.run start = (.ok answer, t)) :
    p.TrueIn given answer t := by
  have hplanned := planned_of_insertPlan hplan
  rw [InsertPlan.run_execute] at hrun
  rcases hr : plan.run given start with ⟨result, y⟩
  rw [hr] at hrun
  cases hrun
  have hgiven := InsertPlan.bound_of_run hr
  obtain ⟨rfl, hy, hdrafts⟩ := InsertPlan.run_told (hplanned.runnable hgiven) hstart hr
  constructor
  case bound =>
    exact fun s hs => contains_of_supplied hplanned hgiven hy hdrafts (hplanned.subjects s hs)
  case typesBound =>
    intro s hs q hq type htype
    obtain ⟨w, hw, hrequired⟩ : ∃ w, q.writer? s.var = some w ∧ type.var ∈ w.required := by
      cases q with
      | isa other | sub other =>
        cases htype
        exact ⟨_, rfl, SortedSet.mem_ofList.2 (List.mem_singleton.2 rfl)⟩
      | label | id | dataType | has | relation | value | neq => cases htype
    have hmem : w ∈ plan.writers := hplanned.writers ▸ mem_writers hs hq hw
    exact contains_of_supplied hplanned hgiven hy hdrafts (hplanned.supplied w hmem _ hrequired)
  case facts =>
    intro v concept hnew hconcept fact hfact hcounts
    exact holds_of_counts hplanned hy hnew hconcept hfact hcounts

theorem exists_of_any_insert {p : Pattern} {bound : SortedSet Variable} {given : Answer}
    {start : Store} {f : Answer → Store → Bool}
    (h : (p.insertPlan bound).toOption.any (fun plan =>
      match (plan.execute given).run.run start with
      | (.ok answer, t) => f answer t
      | (.error _, _) => false) = true) :
    ∃ plan answer t, p.insertPlan bound = .ok plan ∧
      (plan.execute given).run.run start = (.ok answer, t) ∧ f answer t = true := by
  obtain ⟨plan, hplan, hrun⟩ := exists_of_any_toOption h
  rcases hresult : (plan.execute given).run.run start with ⟨e | answer, t⟩
  · rw [hresult] at hrun
    cases hrun
  · rw [hresult] at hrun
    exact ⟨plan, answer, t, hplan, hresult, hrun⟩

/-- A subtype is defined with its datatype, and an attribute of it, which a given person owns. -/
theorem insertPlan_trueIn_nickname :
    let name : Variable := .generated 0
    let nickname : Variable := .named "t"
    let n : Variable := .named "n"
    let x : Variable := .named "x"
    let schema : Statement := ⟨nickname, .positive, [.label ⟨"nickname"⟩, .dataType .string,
      .sub (.labelled name ⟨"name"⟩) false]⟩
    let owned : Statement := ⟨n, .positive,
      [.value ⟨.equal, .constant (.string "Al")⟩, .isa ⟨nickname, none⟩ false]⟩
    let owner : Statement := ⟨x, .positive, [.has ⟨"nickname"⟩ owned]⟩
    let p : Pattern := .conjunction [.statement owner, .statement schema]
    let given : Answer := .ofList [(x, ⟨2⟩)]
    let start := Store.after [.defineType ⟨"person"⟩ none none, .defineType ⟨"name"⟩ none none,
      .insertMember ⟨0⟩]
    ∃ plan answer t, p.insertPlan (.ofList [x]) = .ok plan ∧ start.Reachable ∧
      (plan.execute given).run.run start = (.ok answer, t) ∧ p.TrueIn given answer t ∧
      p.facts answer n = [.value (.string "Al"), .type ⟨3⟩] ∧
      p.facts answer nickname = [.label ⟨"nickname"⟩, .valueType .string, .superType ⟨1⟩] := by
  intro name nickname n x schema owned owner p given start
  have hstart : start.Reachable := Store.reachable_after _
  have hrun : (p.insertPlan (.ofList [x])).toOption.any (fun plan =>
      match (plan.execute given).run.run start with
      | (.ok answer, _) => p.facts answer n = [.value (.string "Al"), .type ⟨3⟩] ∧
        p.facts answer nickname = [.label ⟨"nickname"⟩, .valueType .string, .superType ⟨1⟩]
      | (.error _, _) => false) = true := by
    cbv
  obtain ⟨plan, answer, t, hplan, hrun, hfacts⟩ := exists_of_any_insert (f := fun answer _ =>
    p.facts answer n = [.value (.string "Al"), .type ⟨3⟩] ∧
      p.facts answer nickname = [.label ⟨"nickname"⟩, .valueType .string, .superType ⟨1⟩]) hrun
  exact ⟨plan, answer, t, hplan, hstart, hrun, insertPlan_trueIn hplan hstart hrun,
    of_decide_eq_true hfacts⟩

/-- A number, a label and a second type each stand against the type that a pattern gives. -/
theorem insertPlan_overrules :
    let x : Variable := .named "x"
    let company : Property := .isa (.labelled (.generated 0) ⟨"company"⟩) false
    let person : Property := .isa (.labelled (.generated 1) ⟨"person"⟩) false
    let start := Store.after [.defineType ⟨"person"⟩ none none, .defineType ⟨"company"⟩ none none,
      .insertMember ⟨0⟩]
    start.Reachable ∧ ∀ other ∈ [Property.id ⟨2⟩, .label ⟨"person"⟩, person],
      ∃ plan answer t, insertPlan (.statement ⟨x, .positive, [company, other]⟩) .empty = .ok plan ∧
        (plan.execute .empty).run.run start = (.ok answer, t) ∧
        ∃ concept type, answer.get? x = some concept ∧ answer.get? (.generated 0) = some type ∧
          t.type? concept ≠ some type := by
  intro x company person start
  have hstart : start.Reachable := Store.reachable_after _
  refine ⟨hstart, ?_⟩
  have hoverruled (other : Property)
      (h : (insertPlan (.statement ⟨x, .positive, [company, other]⟩) .empty).toOption.any (fun plan =>
          match (plan.execute .empty).run.run start with
          | (.ok answer, t) => (answer.get? x).any fun concept =>
            (answer.get? (.generated 0)).any (t.type? concept ≠ some ·)
          | (.error _, _) => false) = true) :
      ∃ plan answer t, insertPlan (.statement ⟨x, .positive, [company, other]⟩) .empty = .ok plan ∧
        (plan.execute .empty).run.run start = (.ok answer, t) ∧
        ∃ concept type, answer.get? x = some concept ∧ answer.get? (.generated 0) = some type ∧
          t.type? concept ≠ some type := by
    obtain ⟨plan, answer, t, hplan, hrun, hne⟩ := exists_of_any_insert h
    obtain ⟨concept, hconcept, hne⟩ := (Option.any_eq_true _ _).1 hne
    obtain ⟨type, htype, hne⟩ := (Option.any_eq_true _ _).1 hne
    exact ⟨plan, answer, t, hplan, hrun, concept, type, hconcept, htype, of_decide_eq_true hne⟩
  simp only [List.forall_mem_cons, List.not_mem_nil, false_imp_iff, implies_true, and_true]
  exact ⟨hoverruled _ (by cbv), hoverruled _ (by cbv), hoverruled _ (by cbv)⟩

end Pattern

end GraphQuery
