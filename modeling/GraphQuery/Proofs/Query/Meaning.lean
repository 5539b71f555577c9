import GraphQuery.Proofs.Query.Retyping

/-!
# Equivalent queries mean the same

Statements whose atoms make equivalent queries have constraints that are renamings of each other, as
far as that can be told from labels. Where no two concepts have one label, the statements hold of the
same concepts.
-/

namespace GraphQuery

universe u

variable {U : Type u} {g : Graph U} {a : Variable → U} {f : Variable → Variable} {m n : Supply}
  {s t : Statement} {i j : QueryId}

/-- That no two concepts have one label. -/
def Graph.LabelsOne (g : Graph U) : Prop := ∀ x y l, g.label x l → g.label y l → x = y

theorem Property.holds_iff_demands {p : Property} {var : Variable} :
    p.Holds g a (a var) ↔ ∀ d ∈ (p.ownAtom var).demands, d.Holds g a := by
  have hone (kind : PropertyKind) (step : Fragment) :
      (∀ d ∈ [Demand.plain ⟨kind, [step]⟩], d.Holds g a) ↔ step.Holds g a := by
    simp [Demand.Holds, FragmentSet.Holds]
  have hboth (kind : PropertyKind) (e : Edge) :
      (∀ d ∈ [Demand.plain (.bothWays kind e)], d.Holds g a) ↔ e.Holds g a := by
    simp [Demand.Holds, FragmentSet.holds_bothWays]
  cases p with
  | isa type direct =>
    change _ ↔ ∀ d ∈ [Demand.ofIsa var type.var direct], d.Holds g a
    rw [List.forall_mem_singleton, Demand.holds_ofIsa]
    rfl
  | sub superType direct => exact (hboth .sub (.sub var superType.var direct)).symm
  | label l => exact (hone .label (.label var l)).symm
  | id number => exact (hone .id (.id var number)).symm
  | dataType type => exact (hone .dataType (.dataType var type)).symm
  | has attributeType owned => exact (hboth .has (.has var owned.var)).symm
  | relation players =>
    change _ ↔ ∀ d ∈ players.map fun rp => Demand.role var rp.role rp.player, d.Holds g a
    rw [List.forall_mem_map]
    rfl
  | value predicate => exact (hone .value (.value var predicate)).symm
  | neq other =>
    change _ ↔ ∀ d ∈ [Demand.plain ⟨.neq, [.neq var other, .neq other var]⟩], d.Holds g a
    simp [Holds, Demand.Holds, FragmentSet.Holds, Fragment.Holds, ne_comm]

theorem Statement.holds_iff_demands : s.Holds g a ↔ ∀ d ∈ s.demands, d.Holds g a := by
  simp only [Holds, demands, ownAtoms, Property.holds_iff_demands, List.mem_flatMap, List.mem_map]
  constructor
  · rintro h d ⟨_, ⟨u, hu, p, hp, rfl⟩, hd⟩
    exact h u hu p hp d hd
  · intro h u hu p hp d hd
    exact h d ⟨_, ⟨u, hu, p, hp, rfl⟩, hd⟩

/-- Variables that a statement gives one label are the same concept where it holds. -/
theorem Statement.Holds.eq_of_sameType (h : t.Holds g a) (hg : g.LabelsOne) {v w : Variable}
    (hvw : t.SameType v w) : a v = a w := by
  have hlabel {v : Variable} {l : Label} (hl : t.Labels v l) : g.label (a v) l := by
    obtain ⟨u, hu, rfl, hp⟩ := hl
    exact h u hu _ hp
  rcases hvw with rfl | ⟨l, hv, hw⟩
  · rfl
  · exact hg _ _ l (hlabel hv) (hlabel hw)

/-- A statement whose atoms are renamed to atoms of another holds wherever the other does. -/
theorem Statement.holds_of_renamed
    (h : ∀ a ∈ s.ownAtoms, ∃ b ∈ t.ownAtoms, a.RenamesTo .alpha f b) (hg : g.LabelsOne)
    (hholds : t.Holds g a) : s.Holds g (a ∘ f) := by
  rw [holds_iff_demands]
  intro d hd
  obtain ⟨x, hx, hd⟩ := List.mem_flatMap.1 hd
  obtain ⟨y, hy, hxy⟩ := h x hx
  obtain ⟨d', hd', hretyped⟩ :=
    (retypesTo_sameType h hx hy hxy).pairedUp_demands.exists_right (List.mem_map_of_mem hd)
  rw [← Demand.holds_rename]
  apply hretyped.holds fun v w => hholds.eq_of_sameType hg
  exact holds_iff_demands.1 hholds d' (List.mem_flatMap.2 ⟨y, hy, hd'⟩)

/-- Statements whose atoms make equivalent queries are matched alike. If each variable has a relation
with a type in at most one of the statements that they carry, their constraints are renamings of each
other up to variables of types that have one label, and are so exactly where these variables are
mentioned by nothing else; the supplies have to have numbers enough for what is left unnamed. And the
statements hold of the same concepts of every graph in which no two concepts have one label. -/
theorem Statement.matched_alike_of_equivalent (hs : ∀ u ∈ s.withInner, u.TypesAtMostOnce)
    (ht : ∀ u ∈ t.withInner, u.TypesAtMostOnce) (halike : s.TakesInAlike t) {c d : Conjunction}
    {i' j' : QueryId}
    (h : (Query.ofAtoms i c (s.atoms i')).equivalent .alpha (.ofAtoms j d (t.atoms j')) = true) :
    (s.TypesRelationsOnce → t.TypesRelationsOnce → ∀ m n : Supply, (∀ v ∈ s.allVars, m.Knows v) →
      (∀ v ∈ t.allVars, n.Knows v) → m.next.toNat + s.additions ≤ 2 ^ 64 →
      n.next.toNat + t.additions ≤ 2 ^ 64 →
        (∃ σ : Equiv.Perm Variable, PairedUp (FragmentSet.RetypedTo t.SameType)
          ((s.fragments.run m).1.map (·.rename σ)) (t.fragments.run n).1) ∧
        (Atom.TypesApart s.ownAtoms → ∃ σ : Equiv.Perm Variable,
          ((s.fragments.run m).1.map (·.rename σ)).Perm (t.fragments.run n).1)) ∧
    ∃ σ : Equiv.Perm Variable, ∀ {U : Type u} (g : Graph U), g.LabelsOne →
      ∀ a : Variable → U, t.Holds g a ↔ s.Holds g (a ∘ σ) := by
  obtain ⟨σ, hσ⟩ := Query.pairedUp_of_equivalent h
  have hback : PairedUp (Atom.RenamesTo .alpha σ.symm) (t.atoms j') (s.atoms i') :=
    hσ.symm fun _ _ hab => hab.symm σ.symm_apply_apply
  have hrenamed : ∀ a ∈ s.ownAtoms, ∃ b ∈ t.ownAtoms, a.RenamesTo .alpha σ b :=
    fun _ => exists_ownAtoms hσ σ.injective hs halike
  have hrenamed' : ∀ b ∈ t.ownAtoms, ∃ a ∈ s.ownAtoms, b.RenamesTo .alpha σ.symm a :=
    fun _ => exists_ownAtoms hback σ.symm.injective ht halike.symm
  refine ⟨fun hs' ht' m n hm hn hroom hroom' => ?_, σ, ?_⟩
  · have hm := Supply.freshTo_of_knows hm hroom
    have hn := Supply.freshTo_of_knows hn hroom'
    have hown := pairedUp_ownAtoms hσ hs ht halike hs' ht'
    constructor
    · apply exists_perm_fragments (f := σ) _ σ.injective hm hn
      exact hown.mono fun a ha b hb => retypesTo_sameType hrenamed ha hb
    · intro hapart
      obtain ⟨ρ, hρ⟩ := Atom.exists_retypesTo hown (fun _ => typedByVariable_of_mem_ownAtoms)
        (fun _ => typedByVariable_of_mem_ownAtoms) s.typings_subperm t.typings_subperm hapart
      obtain ⟨τ, hτ⟩ := exists_perm_fragments hρ ρ.injective hm hn
      refine ⟨τ, PairedUp.eq_iff.1 (hτ.mono ?_)⟩
      exact fun _ _ _ _ hretyped => hretyped.eq
  · intro U g hg a
    constructor
    · exact holds_of_renamed hrenamed hg
    · intro hholds
      have hinverse := holds_of_renamed hrenamed' hg hholds
      rwa [Function.comp_assoc, Equiv.self_comp_symm, Function.comp_id] at hinverse

/-- Two dated marriages that differ in the order of the properties and in their variables. Their
constraints are the same but for the variables, and they hold of the same concepts. -/
theorem Statement.matched_alike_marriage :
    let date (v : String) (n : UInt64) : Property := .has ⟨"date"⟩
      ⟨.named v, .positive, [.isa (.labelled (.generated n) ⟨"date"⟩) false]⟩
    let spouse (role v : String) : Property := .relation [⟨some ⟨role⟩, .named v⟩]
    let marriage (n : UInt64) : Property := .isa (.labelled (.generated n) ⟨"marriage"⟩) true
    let s : Statement := ⟨.named "r", .positive,
      [spouse "wife" "x", spouse "husband" "y", marriage 0, date "a" 1, date "b" 2]⟩
    let t : Statement := ⟨.named "s", .positive,
      [date "c" 2, date "d" 1, marriage 3, spouse "husband" "x", spouse "wife" "y"]⟩
    let g : Graph String :=
      { isa := fun x y => (x, y) ∈ [("wedding", "marriage"), ("monday", "date"), ("ann", "person")]
        sub := fun _ _ => False
        label := fun x l => x = l.name
        id := fun _ _ => False
        dataType := fun _ _ => False
        value := fun _ _ => False
        compares := fun _ _ _ => False
        has := fun x y => x = "wedding" ∧ y = "monday"
        joins := fun x edge y => x = "wedding" ∧ edge = "bride" ∧ y = "ann"
        plays := fun edge role => edge = "bride" ∧ role.name = "wife" }
    (∀ u ∈ s.withInner, u.TypesAtMostOnce) ∧ (∀ u ∈ t.withInner, u.TypesAtMostOnce) ∧
      s.TakesInAlike t ∧
      (Query.ofAtoms ⟨0⟩ (.ofList [s]) (s.atoms ⟨0⟩)).equivalent .alpha
        (.ofAtoms ⟨1⟩ (.ofList [t]) (t.atoms ⟨1⟩)) = true ∧
      s.TypesRelationsOnce ∧ t.TypesRelationsOnce ∧ (∀ v ∈ s.allVars, Supply.Knows ⟨4⟩ v) ∧
      (∀ v ∈ t.allVars, Supply.Knows ⟨4⟩ v) ∧ 4 + s.additions ≤ 2 ^ 64 ∧
      4 + t.additions ≤ 2 ^ 64 ∧ Atom.TypesApart s.ownAtoms ∧ g.LabelsOne ∧
      (∃ σ : Equiv.Perm Variable,
        ((s.fragments.run ⟨4⟩).1.map (·.rename σ)).Perm (t.fragments.run ⟨4⟩).1) ∧
      ∃ σ : Equiv.Perm Variable, ∀ a, t.Holds g a ↔ s.Holds g (a ∘ σ) := by
  intro date spouse marriage s t g
  have hs : ∀ u ∈ s.withInner, u.TypesAtMostOnce := by decide
  have ht : ∀ u ∈ t.withInner, u.TypesAtMostOnce := by decide
  have halike : s.TakesInAlike t := by
    have hmarriage : ∀ u ∈ s.withInner ++ t.withInner, u.hasKind .relation = true →
        ∀ p ∈ u.properties, p.kind = .isa → p.alike (marriage 0) = true := by decide
    have hdirect {u : Statement} (hu : u ∈ s.withInner ++ t.withInner) {players : List RolePlayer}
        {type : TypeRef} {direct : Bool} (hrelation : .relation players ∈ u.properties)
        (htype : .isa type direct ∈ u.properties) : direct = true := by
      have hshape := hmarriage u hu (List.any_eq_true.2 ⟨_, hrelation, rfl⟩) _ htype rfl
      exact of_decide_eq_true (Bool.and_eq_true_iff.1 hshape).2
    rintro a b d d' ⟨u, hu, _, _, _, hrelation, htype, -⟩ ⟨u', hu', _, _, _, hrelation', htype', -⟩ -
    rw [hdirect (List.mem_append_left _ hu) hrelation htype,
      hdirect (List.mem_append_right _ hu') hrelation' htype']
  have h : (Query.ofAtoms ⟨0⟩ (.ofList [s]) (s.atoms ⟨0⟩)).equivalent .alpha
      (.ofAtoms ⟨1⟩ (.ofList [t]) (t.atoms ⟨1⟩)) = true := by cbv
  have hs' : s.TypesRelationsOnce := by decide
  have ht' : t.TypesRelationsOnce := by decide
  have hm : ∀ v ∈ s.allVars, Supply.Knows ⟨4⟩ v := by
    have hvars : s.allVars = [.named "r", .named "x", .named "y", .generated 0, .named "a",
        .generated 1, .named "b", .generated 2, .generated 0, .named "a", .generated 1,
        .generated 1, .named "b", .generated 2, .generated 2] := by cbv
    rw [hvars]
    simp [Supply.Knows]
  have hroom : 4 + s.additions ≤ 2 ^ 64 ∧ 4 + t.additions ≤ 2 ^ 64 := by
    have hadditions : s.additions = 4 ∧ t.additions = 4 := by decide
    omega
  have hn : ∀ v ∈ t.allVars, Supply.Knows ⟨4⟩ v := by
    have hvars : t.allVars = [.named "s", .named "c", .generated 2, .named "d", .generated 1,
        .generated 3, .named "x", .named "y", .named "c", .generated 2, .generated 2, .named "d",
        .generated 1, .generated 1, .generated 3] := by cbv
    rw [hvars]
    simp [Supply.Knows]
  have hapart : Atom.TypesApart s.ownAtoms := by
    let types : List (Variable × Label) :=
      [(.generated 0, ⟨"marriage"⟩), (.generated 1, ⟨"date"⟩), (.generated 2, ⟨"date"⟩)]
    have hlabellings : Atom.labellings s.ownAtoms = types := by cbv
    have htypings : Atom.typings s.ownAtoms = types := by cbv
    intro v l hv _
    rw [htypings]
    rw [hlabellings] at hv
    refine ⟨hv, ?_⟩
    simp only [types, List.mem_cons, Prod.mk.injEq, List.not_mem_nil, or_false] at hv
    rcases hv with ⟨rfl, -⟩ | ⟨rfl, -⟩ | ⟨rfl, -⟩ <;> cbv
  have hg : g.LabelsOne := fun x y l hx hy => hx.trans hy.symm
  obtain ⟨hfragments, σ, hσ⟩ := matched_alike_of_equivalent.{0} hs ht halike h
  exact ⟨hs, ht, halike, h, hs', ht', hm, hn, hroom.1, hroom.2, hapart, hg,
    (hfragments hs' ht' ⟨4⟩ ⟨4⟩ hm hn hroom.1 hroom.2).2 hapart, σ, hσ g hg⟩

/-- Four pairs of statements that make equivalent queries. A concept is unlike its type, or unlike
the type that it lies below, which has the same label; a variable has its type once, for two relations,
or in two statements, once for each; a relation has one type or another one besides; a relation is of
its very type or of a type below it. -/
theorem Statement.not_matched_alike :
    let person (v : String) : TypeRef := .labelled (.named v) ⟨"person"⟩
    let unlike (v : String) : Statement := ⟨.named "x", .positive,
      [.isa (person "p") true, .sub (person "q") true, .neq (.named v)]⟩
    let player (v : String) : Property := .relation [⟨none, .named v⟩]
    let isa (v : String) : Property := .isa ⟨.named v, none⟩ false
    let relation (ps : List Property) : Statement := ⟨.named "r", .positive, ps⟩
    let name (ps : List Property) : Property := .has ⟨"name"⟩ (relation ps)
    let equivalent (s t : Statement) : Bool :=
      (Query.ofAtoms ⟨0⟩ (.ofList [s]) (s.atoms ⟨0⟩)).equivalent .alpha
        (.ofAtoms ⟨1⟩ (.ofList [t]) (t.atoms ⟨1⟩))
    let matched (s t : Statement) : Prop := ∃ (m n : Supply) (f : Variable → Variable),
      ((s.fragments.run m).1.map (·.rename f)).Perm (t.fragments.run n).1
    let once : Statement := relation [player "x", player "y", isa "t", name []]
    let twice : Statement := relation [player "x", isa "t", name [player "y", isa "t"]]
    let marriage (direct : Bool) : Statement :=
      relation [.relation [⟨some ⟨"wife"⟩, .named "x"⟩], .isa ⟨.named "t", none⟩ direct]
    (equivalent (unlike "p") (unlike "q") = true ∧ ¬matched (unlike "p") (unlike "q")) ∧
      (equivalent once twice = true ∧ ¬matched once twice) ∧
      (equivalent (relation [player "x", isa "t"]) (relation [player "x", isa "t", isa "u"]) = true ∧
        ¬matched (relation [player "x", isa "t"]) (relation [player "x", isa "t", isa "u"])) ∧
      equivalent (marriage true) (marriage false) = true ∧
        ¬matched (marriage true) (marriage false) := by
  intro person unlike player isa relation name equivalent matched once twice marriage
  refine ⟨⟨?_, ?_⟩, ⟨?_, ?_⟩, ⟨?_, ?_⟩, ?_, ?_⟩
  · cbv
  · rintro ⟨m, n, f, hperm⟩
    have hq : ((unlike "q").fragments.run n).1 =
        [.bothWays .isa (.isa (.named "x") (.named "p")),
          .bothWays .sub (.sub (.named "x") (.named "q") true),
          ⟨.neq, [.neq (.named "x") (.named "q"), .neq (.named "q") (.named "x")]⟩,
          ⟨.label, [.label (.named "p") ⟨"person"⟩]⟩,
          ⟨.label, [.label (.named "q") ⟨"person"⟩]⟩] := rfl
    have hsets : ∀ set ∈ ((unlike "p").fragments.run m).1,
        set.rename f ∈ ((unlike "q").fragments.run n).1 :=
      fun set hset => hperm.subset (List.mem_map_of_mem hset)
    rw [hq] at hsets
    have hisa := hsets (.bothWays .isa (.isa (.named "x") (.named "p"))) List.mem_cons_self
    have hneq := hsets ⟨.neq, [.neq (.named "x") (.named "p"), .neq (.named "p") (.named "x")]⟩
      (List.mem_cons_of_mem _ (List.mem_cons_of_mem _ List.mem_cons_self))
    have hfp : f (.named "x") = .named "x" ∧ f (.named "p") = .named "p" := by
      simpa [FragmentSet.bothWays, FragmentSet.rename, Fragment.rename, Edge.rename] using hisa
    have hfq : f (.named "x") = .named "x" ∧ f (.named "p") = .named "q" := by
      simpa [FragmentSet.bothWays, FragmentSet.rename, Fragment.rename, and_comm] using hneq
    exact absurd (hfp.2.symm.trans hfq.2) (by decide)
  · dsimp only [equivalent, once, twice, relation, player, isa, name]
    cbv
  · rintro ⟨m, n, f, hperm⟩
    have hlength : 5 = 7 := hperm.length_eq
    omega
  · dsimp only [equivalent, relation, player, isa]
    cbv
  · rintro ⟨m, n, f, hperm⟩
    have hlength : 3 = 5 := hperm.length_eq
    omega
  · dsimp only [equivalent, marriage, relation]
    cbv
  · rintro ⟨m, n, f, hperm⟩
    have hlength : 2 = 3 := hperm.length_eq
    omega

end GraphQuery
