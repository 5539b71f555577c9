import GraphQuery.Proofs.Insert.Execution
import GraphQuery.Proofs.Store.Definition
import GraphQuery.Proofs.Store.Facts

/-!
# Contributions to drafts

What a writer says about a variable is a fact, given the concepts of an answer. A draft collects the
facts of several writers, one of each kind, and not all of them count: a number is followed before a
label, and a label before the type of an instance. The facts that count are true of the concept that
is made from the draft (`Draft.build_describes`).
-/

namespace GraphQuery

open Std.Do

set_option mvcgen.warning false

namespace Fact

/-- The kind of property that says the fact. -/
def kind : Fact → PropertyKind
  | type _ => .isa
  | superType _ => .sub
  | label _ => .label
  | id _ => .id
  | valueType _ => .dataType
  | value _ => .value

/-- What comes first when a concept is found or made: its number, then what describes a type, then
what describes an instance. -/
def rank : Fact → Nat
  | id _ => 0
  | label _ | superType _ | valueType _ => 1
  | type _ | value _ => 2

theorem rank_eq_of_kind_eq {fact other : Fact} (h : fact.kind = other.kind) :
    fact.rank = other.rank := by
  cases fact <;> cases other <;> simp_all [kind, rank]

end Fact

/-- What a property says of its variable, given the concepts of an answer. -/
def Property.fact? (answer : Answer) : Property → Option Fact
  | .isa type _ => (answer.get? type.var).map .type
  | .sub superType _ => (answer.get? superType.var).map .superType
  | .label l => some (.label l)
  | .id number => some (.id number)
  | .dataType v => some (.valueType v)
  | .value predicate => predicate.fixedValue?.map .value
  | .has .. | .relation _ | .neq _ => none

/-- What a writer says of its variable, given the concepts of an answer. -/
def Writer.fact? (answer : Answer) (w : Writer) : Option Fact :=
  match w.action with
  | .isa type => (answer.get? type).map .type
  | .sub superType => (answer.get? superType).map .superType
  | .label l => some (.label l)
  | .id number => some (.id number)
  | .dataType v => some (.valueType v)
  | .value v => some (.value v)
  | .has _ | .rolePlayers _ => none

namespace Writer

variable {answer other : Answer} {w : Writer} {fact : Fact}

/-- What a writer says does not change while further concepts are made. -/
theorem fact?_mono (h : ∀ v id, answer.get? v = some id → other.get? v = some id)
    (hw : w.fact? answer = some fact) : w.fact? other = some fact := by
  obtain ⟨_, _, _, _, action⟩ := w
  cases action with
  | isa type | sub type =>
    obtain ⟨id, hid, rfl⟩ := Option.map_eq_some_iff.1 hw
    exact Option.map_eq_some_iff.2 ⟨id, h _ _ hid, rfl⟩
  | label | id | dataType | value => exact hw
  | has | rolePlayers => cases hw

theorem links_eq_false_of_fact? (h : w.fact? answer = some fact) : w.links = false := by
  obtain ⟨_, _, _, _, action⟩ := w
  cases action with
  | isa | sub | label | id | dataType | value => rfl
  | has | rolePlayers => cases h

theorem Regular.mem_produced {v : Variable} (hw : w.Regular) :
    v ∈ w.produced ↔ w.links = false ∧ w.var = v := by
  rw [hw.produced]
  cases w.links <;> simp [eq_comm]

theorem fact?_of_writer? {p : Property} {v : Variable} (answer : Answer) (h : p.writer? v = some w) :
    w.var = v ∧ w.fact? answer = p.fact? answer := by
  cases p with
  | value predicate =>
    obtain ⟨value, hvalue, rfl⟩ := Option.map_eq_some_iff.1 h
    exact ⟨rfl, by rw [Property.fact?, hvalue]; rfl⟩
  | neq => cases h
  | isa | sub | label | id | dataType | has | relation =>
    cases h
    exact ⟨rfl, rfl⟩

theorem exists_writer?_of_fact? {p : Property} (v : Variable) (h : p.fact? answer = some fact) :
    ∃ w, p.writer? v = some w := by
  cases p with
  | value predicate =>
    obtain ⟨value, hvalue, -⟩ := Option.map_eq_some_iff.1 h
    exact ⟨_, Option.map_eq_some_iff.2 ⟨value, hvalue, rfl⟩⟩
  | neq => cases h
  | isa | sub | label | id | dataType | has | relation => exact ⟨_, rfl⟩

end Writer

namespace Draft

def Says (d : Draft) : Fact → Prop
  | .type t => d.isa = some t
  | .superType upper => d.superType = some upper
  | .label l => d.label = some l
  | .id number => d.id = some number
  | .valueType v => d.valueType = some v
  | .value v => d.value = some v

/-- The draft that says one thing more. It says no two things of one kind. -/
def tell (d : Draft) : Fact → Draft
  | .type t => { d with isa := some t }
  | .superType upper => { d with superType := some upper }
  | .label l => { d with label := some l }
  | .id number => { d with id := some number }
  | .valueType v => { d with valueType := some v }
  | .value v => { d with value := some v }

theorem not_says_empty (fact : Fact) : ¬({} : Draft).Says fact := by
  cases fact <;> simp [Says]

theorem says_tell {d : Draft} {fact other : Fact} :
    (d.tell fact).Says other ↔ other = fact ∨ other.kind ≠ fact.kind ∧ d.Says other := by
  cases fact <;> cases other <;> simp [tell, Says, Fact.kind, eq_comm]

/-- The facts of the draft that count are true of the concept. -/
def Describes (d : Draft) (s : Store) (concept : ConceptId) : Prop :=
  ∀ fact, d.Says fact → (∀ other, d.Says other → fact.rank ≤ other.rank) → fact.Holds s concept

theorem Describes.evolves {d : Draft} {s t : Store} {concept : ConceptId}
    (h : d.Describes s concept) (hst : s.Evolves t) : d.Describes t concept :=
  fun fact hfact hrank => (h fact hfact hrank).evolves hst

section Built

variable {d : Draft} {s : Store} {concept : ConceptId}

theorem describes_of_id (h : d.id = some concept) : d.Describes s concept := by
  intro fact hfact hrank
  have hleast : fact.rank ≤ 0 := hrank (.id concept) h
  cases fact with
  | id => exact Option.some.inj (h.symm.trans hfact)
  | type | superType | label | valueType | value => simp [Fact.rank] at hleast

theorem describes_of_label {l : Label} (hid : d.id = none) (h : d.label = some l)
    (hlabel : s.label? concept = some l)
    (hsuper : ∀ upper ∈ d.superType, s.superType? concept = some upper)
    (hvalue : ∀ v ∈ d.valueType, s.valueType? concept = some v) : d.Describes s concept := by
  intro fact hfact hrank
  have hleast : fact.rank ≤ 1 := hrank (.label l) h
  cases fact with
  | id number =>
    rw [Says, hid] at hfact
    cases hfact
  | label other =>
    cases h.symm.trans hfact
    exact hlabel
  | superType upper => exact hsuper upper hfact
  | valueType v => exact hvalue v hfact
  | type | value => simp [Fact.rank] at hleast

theorem describes_of_isa {type : ConceptId} (hid : d.id = none) (hlabel : d.label = none)
    (hdefines : d.definesType = false) (h : d.isa = some type)
    (htype : s.type? concept = some type)
    (hvalue : ∀ v ∈ d.value, s.value? concept = some v) : d.Describes s concept := by
  have hnone : d.superType = none ∧ d.valueType = none := by
    simpa [definesType] using hdefines
  intro fact hfact _
  cases fact with
  | type other =>
    cases h.symm.trans hfact
    exact htype
  | value v => exact hvalue v hfact
  | id | label | superType | valueType => simp_all [Says]

end Built

/-- The facts of a draft that count are true of the concept that is made from it. -/
theorem build_describes {d : Draft} {s : Store} (h : s.Reachable) (v : Variable) :
    ⦃fun t => ⌜t = s⌝⦄ d.build v
    ⦃post⟨fun concept t => ⌜d.Describes t concept⌝, fun _ _ => ⌜True⌝⟩⦄ := by
  have hdefine l upper value :=
    triple_of_ok (m := Store.defineType l upper value) fun _ _ => Store.facts_of_defineType h
  have hput type value :=
    triple_of_ok (m := Store.putAttribute type value) fun _ _ => Store.facts_of_putAttribute h
  have hinsert type :=
    triple_of_ok (m := Store.insertMember type) (s := s) fun _ _ => Store.type?_of_insertMember
  mvcgen [build, WriteM.ofStore, hdefine, hput, hinsert, Store.contains_spec]
  -- What is left is one goal for each way in which a concept is found or made.
  · exact describes_of_id ‹_›
  · exact describes_of_label ‹_› ‹_›
  · rename_i hlabel hid hdefines u hu concept hfound
    have hnone : d.superType = none ∧ d.valueType = none := by
      simpa [definesType] using hdefines
    subst hu
    exact describes_of_label hid hlabel ((h.consistent.typeWithLabel _ _).1 hfound)
      (by simp [hnone.1]) (by simp [hnone.2])
  · rename_i hisa hlabel hid _ hdefines value hvalue _ _ concept u
    intro htype hput
    exact describes_of_isa hid hlabel (by simpa using hdefines) hisa htype
      fun w hw => by rwa [← Option.some.inj (hvalue.symm.trans hw)]
  · rename_i hisa hlabel hid _ hdefines hvalue _ _ concept u
    intro htype
    exact describes_of_isa hid hlabel (by simpa using hdefines) hisa htype (by simp [hvalue])

end Draft

end GraphQuery
