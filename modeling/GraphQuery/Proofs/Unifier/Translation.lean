import GraphQuery.Proofs.Unifier.Unification

/-!
# Translation of answers

An answer is translated binding by binding and target by target: each binding of a variable gives
one for every variable that it becomes. Bindings can be made one after another as long as no
variable gets two concepts, and the answer then has just those that were made. So a translation
fails exactly when two bindings clash. None do under a bijective unifier, whose inverse undoes the
translation.
-/

namespace GraphQuery

namespace Answer

variable {a t : Answer} {v w : Variable} {c d : ConceptId} {bs : List (Variable × ConceptId)}

theorem get?_of_bind? (h : a.bind? v c = some t) :
    t.get? w = some d ↔ a.get? w = some d ∨ (w, d) = (v, c) := by
  rw [bind?] at h
  split at h
  case h_1 bound hbound =>
    split at h
    case isTrue heq =>
      obtain rfl := Option.some.inj h
      subst heq
      constructor
      · exact .inl
      · rintro (hw | hw)
        · exact hw
        · obtain ⟨rfl, rfl⟩ := Prod.mk.inj hw
          exact hbound
    case isFalse => cases h
  case h_2 hnone =>
    obtain rfl := Option.some.inj h
    rw [SortedMap.get?_insert]
    by_cases hvw : v = w
    · subst hvw
      simp [hnone, eq_comm]
    · simp [hvw, Ne.symm hvw]

/-- A variable can be bound to what it is bound to already, or if it is not bound. -/
theorem exists_bind? (h : ∀ d, a.get? v = some d → d = c) : ∃ t, a.bind? v c = some t := by
  rw [bind?]
  split
  case h_1 bound hbound => exact ⟨a, if_pos (h bound hbound)⟩
  case h_2 => exact ⟨_, rfl⟩

/-- The answer with further bindings, unless a variable is bound to two concepts. -/
def bindAll? (a : Answer) (bs : List (Variable × ConceptId)) : Option Answer :=
  bs.foldlM (fun t b => t.bind? b.1 b.2) a

theorem bindAll?_cons (b : Variable × ConceptId) :
    a.bindAll? (b :: bs) = (a.bind? b.1 b.2).bind (·.bindAll? bs) :=
  List.foldlM_cons

theorem get?_of_bindAll? (h : a.bindAll? bs = some t) :
    t.get? w = some d ↔ a.get? w = some d ∨ (w, d) ∈ bs := by
  induction bs generalizing a with
  | nil =>
    obtain rfl := Option.some.inj h
    simp
  | cons b bs ih =>
    rw [bindAll?_cons] at h
    obtain ⟨a', ha', h⟩ := Option.bind_eq_some_iff.1 h
    rw [ih h, get?_of_bind? ha', List.mem_cons, or_assoc]

/-- The bindings can be made if no variable has two concepts among them and those made before. -/
theorem exists_bindAll?
    (h : ∀ w c d, (a.get? w = some c ∨ (w, c) ∈ bs) → (a.get? w = some d ∨ (w, d) ∈ bs) → c = d) :
    ∃ t, a.bindAll? bs = some t := by
  induction bs generalizing a with
  | nil => exact ⟨a, rfl⟩
  | cons b bs ih =>
    obtain ⟨a', ha'⟩ : ∃ a', a.bind? b.1 b.2 = some a' :=
      exists_bind? fun d hd => h b.1 d b.2 (.inl hd) (.inr List.mem_cons_self)
    -- What the first binding adds to the answer it takes from the list.
    have hsame (w : Variable) (c : ConceptId) :
        (a'.get? w = some c ∨ (w, c) ∈ bs) ↔ a.get? w = some c ∨ (w, c) ∈ b :: bs := by
      rw [get?_of_bind? ha', List.mem_cons, or_assoc]
    obtain ⟨t, ht⟩ := ih fun w c d hc hd => h w c d ((hsame w c).1 hc) ((hsame w d).1 hd)
    exact ⟨t, by rw [bindAll?_cons, ha', Option.bind_some, ht]⟩

end Answer

namespace Substitution

variable {s : Substitution} {answer : Answer} {v w : Variable} {c : ConceptId}

/-- The bindings that the translation of an answer makes, in their order. -/
def sent (s : Substitution) (answer : Answer) : List (Variable × ConceptId) :=
  answer.toList.flatMap fun binding => (s.apply binding.1).map fun w => (w, binding.2)

theorem translate_eq (s : Substitution) (answer : Answer) :
    s.translate answer = Answer.bindAll? .empty (s.sent answer) := by
  rw [translate, sent, Answer.bindAll?]
  generalize (SortedMap.empty : Answer) = translated
  induction answer.toList generalizing translated with
  | nil => rfl
  | cons binding bindings ih =>
    rw [List.flatMap_cons, List.foldlM_append, List.foldlM_map, List.foldlM_cons]
    exact bind_congr ih

theorem mem_sent : (w, c) ∈ s.sent answer ↔ ∃ v, answer.get? v = some c ∧ w ∈ s.apply v := by
  simp only [sent, List.mem_flatMap, List.mem_map, Prod.exists, Prod.mk.injEq]
  constructor
  · rintro ⟨v, _, hbinding, _, hw, rfl, rfl⟩
    exact ⟨v, SortedMap.mem_toList_iff.1 hbinding, hw⟩
  · rintro ⟨v, hbinding, hw⟩
    exact ⟨v, c, SortedMap.mem_toList_iff.2 hbinding, w, hw, rfl, rfl⟩

theorem get?_of_translate {translated : Answer} (h : s.translate answer = some translated) :
    translated.get? w = some c ↔ ∃ v, answer.get? v = some c ∧ w ∈ s.apply v := by
  rw [translate_eq] at h
  rw [Answer.get?_of_bindAll? h, mem_sent, SortedMap.get?_empty]
  simp

theorem exists_translate
    (h : ∀ v v' c c', answer.get? v = some c → answer.get? v' = some c' →
      ∀ w ∈ s.apply v, w ∈ s.apply v' → c = c') :
    ∃ translated, s.translate answer = some translated := by
  rw [translate_eq]
  apply Answer.exists_bindAll?
  simp only [SortedMap.get?_empty, reduceCtorEq, false_or, mem_sent]
  rintro w c c' ⟨v, hv, hw⟩ ⟨v', hv', hw'⟩
  exact h v v' c c' hv hv' w hw hw'

/-- Where an answer has what the bindings become, those that fall on one variable agree. -/
theorem eq_of_mem_apply {translated : Answer} {v' : Variable} {c' : ConceptId}
    (h : ∀ w c, translated.get? w = some c ↔ ∃ v, answer.get? v = some c ∧ w ∈ s.apply v)
    (hv : answer.get? v = some c) (hv' : answer.get? v' = some c')
    (hw : w ∈ s.apply v) (hw' : w ∈ s.apply v') : c = c' := by
  have hc : translated.get? w = some c := (h w c).2 ⟨v, hv, hw⟩
  rw [(h w c').2 ⟨v', hv', hw'⟩] at hc
  exact (Option.some.inj hc).symm

/-- A translation is the answer, if there is one, that has the bindings made and no others. -/
theorem translate_eq_some_iff {translated : Answer} :
    s.translate answer = some translated ↔
      ∀ w c, translated.get? w = some c ↔ ∃ v, answer.get? v = some c ∧ w ∈ s.apply v := by
  constructor
  · intro h w c
    exact get?_of_translate h
  · intro h
    -- The concepts are those of one answer, so no variable gets two.
    obtain ⟨t, ht⟩ : ∃ t, s.translate answer = some t := by
      apply exists_translate
      intro v v' c c' hv hv' w hw hw'
      exact eq_of_mem_apply h hv hv' hw hw'
    rw [ht]
    apply congrArg some
    ext w c
    rw [get?_of_translate ht, h]

end Substitution

namespace Unifier

/-- Two bindings of an answer with different concepts fall on one variable. -/
def Clashes (u : Unifier) (answer : Answer) : Prop :=
  ∃ v v' c c', answer.get? v = some c ∧ answer.get? v' = some c' ∧ c ≠ c' ∧
    ∃ w, w ∈ u.apply v ∧ w ∈ u.apply v'

/-- A unifier that exists translates exactly the answers without a clash, and a translation has
exactly the bindings that those of the answer become. -/
theorem translate_exact (s : Substitution) (answer : Answer) :
    (((mapping s).translate answer).isSome = true ↔ ¬(mapping s).Clashes answer) ∧
      ∀ translated : Answer, (mapping s).translate answer = some translated ↔
        ∀ w c, translated.get? w = some c ↔
          ∃ v, answer.get? v = some c ∧ w ∈ (mapping s).apply v := by
  refine ⟨?_, fun translated => Substitution.translate_eq_some_iff⟩
  rw [Option.isSome_iff_exists]
  constructor
  · rintro ⟨t, ht⟩ ⟨v, v', c, c', hv, hv', hne, w, hw, hw'⟩
    exact hne (Substitution.eq_of_mem_apply (Substitution.translate_eq_some_iff.1 ht) hv hv' hw hw')
  · intro h
    apply Substitution.exists_translate
    intro v v' c c' hv hv' w hw hw'
    by_contra hne
    exact h ⟨v, v', c, c', hv, hv', hne, w, hw, hw'⟩

/-- A variable that is sent clashes with one that stays what it is. -/
example :
    let answer : Answer := .ofList [(.named "x", ⟨1⟩), (.named "y", ⟨2⟩)]
    (ofPairs [(.named "x", .named "y")]).translate answer = none := by
  cbv

end Unifier

namespace Substitution

variable {s : Substitution} {v w : Variable}

/-- What becomes of a variable that is sent is what it is sent to. -/
theorem mem_apply_of_mem_keys (h : v ∈ s.keys) : w ∈ s.apply v ↔ (v, w) ∈ s.pairs := by
  rw [← mem_targets, apply]
  cases htargets : s.targets v with
  | nil =>
    obtain ⟨x, hx⟩ := mem_keys.1 h
    rw [← mem_targets, htargets] at hx
    cases hx
  | cons x xs => rfl

theorem OneToOne.targets_eq_singleton_iff (hs : s.OneToOne) :
    s.targets v = [w] ↔ (v, w) ∈ s.pairs := by
  constructor
  · intro h
    rw [← mem_targets, h]
    exact List.mem_cons_self
  · intro h
    have hall := all_length_targets_iff.2 fun p hp q hq hpq =>
      Prod.ext hpq ((hs p hp q hq).1 hpq)
    have hone : (s.targets v).length = 1 :=
      of_decide_eq_true (List.all_eq_true.1 hall v (mem_keys.2 ⟨w, h⟩))
    obtain ⟨x, hx⟩ := List.length_eq_one_iff.1 hone
    rw [← mem_targets, hx, List.mem_singleton] at h
    rw [hx, h]

/-- Nothing clashes under a one-to-one substitution, and its inverse sends each binding back. -/
theorem OneToOne.exists_translate (hs : s.OneToOne) {answer : Answer}
    (hkeys : ∀ v ∈ answer.keys, v ∈ s.keys) :
    ∃ translated : Answer, s.translate answer = some translated ∧
      (∀ w c, translated.get? w = some c ↔ ∃ v, answer.get? v = some c ∧ (v, w) ∈ s.pairs) ∧
      s.inverse.translate translated = some answer := by
  have hkey {v : Variable} {c : ConceptId} (hv : answer.get? v = some c) : v ∈ s.keys :=
    hkeys v (SortedMap.mem_keys_iff.2 (SortedMap.contains_iff.2 ⟨c, hv⟩))
  have happly {v w : Variable} {c : ConceptId} (hv : answer.get? v = some c) :
      w ∈ s.apply v ↔ (v, w) ∈ s.pairs := mem_apply_of_mem_keys (hkey hv)
  obtain ⟨translated, htranslated⟩ : ∃ translated, s.translate answer = some translated := by
    apply Substitution.exists_translate
    intro v v' c c' hv hv' w hw hw'
    obtain rfl : v = v' := (hs (v, w) ((happly hv).1 hw) (v', w) ((happly hv').1 hw')).2 rfl
    exact Option.some.inj (hv.symm.trans hv')
  have hbinds (w : Variable) (c : ConceptId) :
      translated.get? w = some c ↔ ∃ v, answer.get? v = some c ∧ (v, w) ∈ s.pairs := by
    rw [get?_of_translate htranslated]
    exact exists_congr fun v => and_congr_right happly
  refine ⟨translated, htranslated, hbinds, ?_⟩
  rw [translate_eq_some_iff]
  intro v c
  -- A variable that is bound in the translation is the image of one, to which the inverse sends it.
  have hback {w : Variable} (hw : translated.get? w = some c) :
      v ∈ s.inverse.apply w ↔ (v, w) ∈ s.pairs := by
    obtain ⟨x, -, hx⟩ := (hbinds w c).1 hw
    rw [mem_apply_of_mem_keys (mem_keys.2 ⟨x, mem_inverse.2 hx⟩), mem_inverse]
  constructor
  · intro hv
    obtain ⟨w, hvw⟩ := mem_keys.1 (hkey hv)
    have hw := (hbinds w c).2 ⟨v, hv, hvw⟩
    exact ⟨w, hw, (hback hw).2 hvw⟩
  · rintro ⟨w, hw, hvw⟩
    obtain ⟨x, hx, hxw⟩ := (hbinds w c).1 hw
    obtain rfl : x = v := (hs (x, w) hxw (v, w) ((hback hw).1 hvw)).2 rfl
    exact hx

end Substitution

namespace Unifier

/-- Answers of the variables that the unifier sends can be translated: the translation binds exactly
the images of the variables, and the inverse translates it back. -/
def Lossless (u : Unifier) : Prop :=
  ∀ answer : Answer, (∀ v ∈ answer.keys, v ∈ u.keys) →
    ∃ translated : Answer, u.translate answer = some translated ∧
      (∀ w c, translated.get? w = some c ↔
        ∃ v, answer.get? v = some c ∧ u.targets? v = some [w]) ∧
      u.inverse.translate translated = some answer

theorem targets?_eq_singleton_iff {s : Substitution} (hs : s.OneToOne) {v w : Variable} :
    (mapping s).targets? v = some [w] ↔ (v, w) ∈ s.pairs := by
  rw [targets?_mapping, ← hs.targets_eq_singleton_iff]
  split
  case isTrue hnil => simp [hnil]
  case isFalse => rw [Option.some.injEq]

theorem lossless_of_isBijective {u : Unifier} (h : u.isBijective = true) : u.Lossless := by
  cases u with
  | nonExistent => cases h
  | mapping s =>
    have hs : s.OneToOne := Substitution.isBijective_iff.1 h
    intro answer hkeys
    obtain ⟨translated, htranslated, hbinds, hback⟩ := hs.exists_translate hkeys
    refine ⟨translated, htranslated, ?_, hback⟩
    simpa only [targets?_eq_singleton_iff hs] using hbinds

end Unifier

/-- Exact unifiers translate without loss, and so does every bijective unifier. -/
theorem Atom.unify_exact_lossless :
    (∀ child parent : Atom, ∀ u ∈ (child.unify parent .exact).toList, u.Lossless) ∧
      ∀ u : Unifier, u.isBijective = true → u.Lossless := by
  refine ⟨?_, fun u => Unifier.lossless_of_isBijective⟩
  intro child parent u hu
  obtain ⟨s, hs, rfl⟩ := MultiUnifier.mem_toList.1 hu
  obtain ⟨-, -, -, hone⟩ := mem_unify_exact.1 hs
  exact Unifier.lossless_of_isBijective (Substitution.isBijective_iff.2 hone)

/-- Both relations have the same variables, which change their places in a circle. -/
theorem Atom.unify_exact_lossless_friends :
    let friend : Option Label := some ⟨"friend"⟩
    let child : Atom := ⟨.named "r", .about (.named "r"), ⟨0⟩,
      .relation none none [⟨friend, .named "x"⟩, ⟨friend, .named "y"⟩]⟩
    let parent : Atom := ⟨.named "x", .about (.named "x"), ⟨1⟩,
      .relation none none [⟨friend, .named "r"⟩, ⟨friend, .named "y"⟩]⟩
    let u : Unifier :=
      .ofPairs [(.named "r", .named "x"), (.named "x", .named "y"), (.named "y", .named "r")]
    let answer : Answer := .ofList [(.named "r", ⟨7⟩), (.named "x", ⟨8⟩), (.named "y", ⟨9⟩)]
    u ∈ (child.unify parent .exact).toList ∧ (∀ v ∈ answer.keys, v ∈ u.keys) ∧
      ∃ translated : Answer, u.translate answer = some translated ∧
        (∀ w c, translated.get? w = some c ↔
          ∃ v, answer.get? v = some c ∧ u.targets? v = some [w]) ∧
        u.inverse.translate translated = some answer := by
  intro friend child parent u answer
  have hu : u ∈ (child.unify parent .exact).toList := List.contains_iff_mem.1 (by cbv)
  have hkeys : ∀ v ∈ answer.keys, v ∈ u.keys := of_decide_eq_true (by cbv)
  exact ⟨hu, hkeys, unify_exact_lossless.1 child parent u hu answer hkeys⟩

end GraphQuery
