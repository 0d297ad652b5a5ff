import ExiSchema.Proofs.Grammar.Sequence

/-!
Freedom to end at the start, and ends that lead back there. Both touch rule 0, so what they add to
the language depends on the runs that come back to the start before they end.
-/

set_option autoImplicit false

open Computability

namespace ExiSchema.Grammar

variable {g : Grammar}

theorem rule?_modifyStart_zero (g : Grammar) (f : Rule → Rule) :
    (g.modifyStart f).rule? 0 = (g.rule? 0).map f := by
  rw [rule?, modifyStart, Array.getElem?_modify, if_pos rfl]
  rfl

theorem rule?_modifyStart_of_ne (f : Rule → Rule) {i : Nat} (ne : i ≠ 0) :
    (g.modifyStart f).rule? i = g.rule? i := by
  rw [rule?, modifyStart, Array.getElem?_modify, if_neg (Ne.symm ne)]
  rfl

/-- A change of the start rule that keeps its steps keeps the runs. -/
theorem step_modifyStart_iff {f : Rule → Rule} (steps : ∀ r u j, (f r).Offers u j ↔ r.Offers u j)
    {i j : Nat} {u : List Event} : Step (g.modifyStart f) i u j ↔ Step g i u j := by
  by_cases start : i = 0
  · subst start
    simp only [Step, rule?_modifyStart_zero, Option.map_eq_some_iff]
    constructor
    · rintro ⟨_, ⟨r, rule, rfl⟩, offers⟩
      exact ⟨r, rule, (steps r u j).1 offers⟩
    · rintro ⟨r, rule, offers⟩
      exact ⟨_, ⟨r, rule, rfl⟩, (steps r u j).2 offers⟩
  · simp only [Step, rule?_modifyStart_of_ne f start]

theorem Rule.offers_add_endElement_iff {r : Rule} {u : List Event} {j : Nat} :
    (r.add .endElement).Offers u j ↔ r.Offers u j := by
  simp [Rule.Offers, Rule.add, or_and_right, exists_or, Production.endElement]

theorem step_withEscape_iff {i j : Nat} {u : List Event} :
    Step g.withEscape i u j ↔ Step g i u j :=
  step_modifyStart_iff fun _ _ _ => Rule.offers_add_endElement_iff

theorem endsAt_withEscape_iff {i : Nat} :
    g.withEscape.EndsAt i ↔ g.EndsAt i ∨ i = 0 ∧ 0 < g.size := by
  by_cases start : i = 0
  · subst start
    constructor
    · exact fun ends => .inr ⟨rfl, by simpa using ends.lt_size⟩
    · rintro (ends | ⟨_, nonempty⟩)
      · obtain ⟨r, rule, ends⟩ := ends
        exact ⟨r.add .endElement, by rw [withEscape, rule?_modifyStart_zero, rule]; rfl,
          Rule.hasEnd_iff.2 (List.mem_append_right _ List.mem_cons_self)⟩
      · obtain ⟨r, rule⟩ := rule?_eq_some_of_lt nonempty
        exact ⟨r.add .endElement, by rw [withEscape, rule?_modifyStart_zero, rule]; rfl,
          Rule.hasEnd_iff.2 (List.mem_append_right _ List.mem_cons_self)⟩
  · simp only [EndsAt, withEscape, rule?_modifyStart_of_ne _ start, start, false_and, or_false]

theorem restarts_withEscape : g.withEscape.restarts = g.restarts := by
  ext w
  exact ⟨.mono fun _ _ _ => step_withEscape_iff.1, .mono fun _ _ _ => step_withEscape_iff.2⟩

/-- With the freedom to end at its start, a grammar accepts in addition the words that lead back
there. -/
theorem language_withEscape (nonempty : 0 < g.size) :
    g.withEscape.language = g.language + g.restarts := by
  ext w
  rw [Language.mem_add, mem_language_iff_reads, mem_language_iff_reads, mem_restarts]
  constructor
  · rintro ⟨j, run, ends⟩
    have inner := run.mono fun _ _ _ => step_withEscape_iff.1
    rcases endsAt_withEscape_iff.1 ends with ends | ⟨rfl, _⟩
    · exact .inl ⟨j, inner, ends⟩
    · exact .inr inner
  · rintro (⟨j, run, ends⟩ | run)
    · exact ⟨j, run.mono fun _ _ _ => step_withEscape_iff.2, endsAt_withEscape_iff.2 (.inl ends)⟩
    · exact ⟨0, run.mono fun _ _ _ => step_withEscape_iff.2,
        endsAt_withEscape_iff.2 (.inr ⟨rfl, nonempty⟩)⟩

theorem WellFormed.modifyStart {f : Rule → Rule} (wf : g.WellFormed)
    (stands : ∀ r, r.Stands 0 g.size → (f r).Stands 0 g.size) : (g.modifyStart f).WellFormed := by
  obtain ⟨nonempty, rules⟩ := wellFormed_iff.1 wf
  rw [wellFormed_iff, size_modifyStart]
  refine ⟨nonempty, fun i r rule => ?_⟩
  by_cases start : i = 0
  · subst start
    obtain ⟨s, old, rfl⟩ := Option.map_eq_some_iff.1 ((rule?_modifyStart_zero g f).symm.trans rule)
    exact stands s (rules 0 s old)
  · exact rules i r ((rule?_modifyStart_of_ne f start).symm.trans rule)

theorem WellFormed.withEscape (wf : g.WellFormed) : g.withEscape.WellFormed := by
  refine wf.modifyStart fun r stands => ⟨stands.numbered, fun p mem => ?_⟩
  rcases List.mem_append.1 mem with old | new
  · exact stands.fits p old
  · rw [List.mem_singleton.1 new]
    exact Production.fits_endElement _

/-- The grammar with the freedom to end at its start, added only where it is not there. -/
def escaped (g : Grammar) : Grammar := if (g.rule? 0).any Rule.hasEnd then g else g.withEscape

theorem escaped_eq_self (ends : g.EndsAt 0) : g.escaped = g := by
  obtain ⟨r, rule, ends⟩ := ends
  rw [escaped, rule, if_pos (by simpa using ends)]

theorem escaped_eq_withEscape (closed : ¬ g.EndsAt 0) : g.escaped = g.withEscape := by
  refine if_neg fun start => closed ?_
  obtain ⟨r, rule, ends⟩ := (Option.any_eq_true _ _).1 start
  exact ⟨r, rule, ends⟩

theorem WellFormed.escaped (wf : g.WellFormed) : g.escaped.WellFormed := by
  unfold Grammar.escaped
  split
  · exact wf
  · exact wf.withEscape

theorem endsAt_escaped (nonempty : 0 < g.size) : g.escaped.EndsAt 0 := by
  by_cases ends : g.EndsAt 0
  · rwa [escaped_eq_self ends]
  · rw [escaped_eq_withEscape ends]
    exact endsAt_withEscape_iff.2 (.inr ⟨rfl, nonempty⟩)

theorem restarts_escaped : g.escaped.restarts = g.restarts := by
  by_cases ends : g.EndsAt 0
  · rw [escaped_eq_self ends]
  · rw [escaped_eq_withEscape ends, restarts_withEscape]

theorem language_escaped (nonempty : 0 < g.size) :
    g.escaped.language = g.language + g.restarts := by
  by_cases ends : g.EndsAt 0
  · rw [escaped_eq_self ends]
    exact (add_eq_left_iff_le.2 (restarts_le_language ends)).symm
  · rw [escaped_eq_withEscape ends, language_withEscape nonempty]

theorem rule?_looped (g : Grammar) (i : Nat) :
    g.looped.rule? i = (g.rule? i).map fun r => if i = 0 then r else r.led 0 (some 0) := by
  simp only [rule?, looped, Array.getElem?_mapIdx, Rule.led, Rule.shifted_zero]

theorem step_looped_iff {i j : Nat} {u : List Event} :
    Step g.looped i u j ↔ Step g i u j ∨ i ≠ 0 ∧ j = 0 ∧ u = [] ∧ g.EndsAt i := by
  simp only [Step, EndsAt, rule?_looped, Option.map_eq_some_iff]
  by_cases start : i = 0
  · simp [start]
  · simp only [start, if_false, ne_eq, not_false_eq_true, true_and]
    constructor
    · rintro ⟨_, ⟨r, rule, rfl⟩, offers⟩
      rcases Rule.offers_led_iff.1 offers with ⟨k, rfl, inner⟩ | ⟨exit, rfl, ends⟩
      · exact .inl ⟨r, rule, (Nat.zero_add k).symm ▸ inner⟩
      · exact .inr ⟨(Option.some.inj exit).symm, rfl, r, rule, ends⟩
    · rintro (⟨r, rule, offers⟩ | ⟨rfl, rfl, r, rule, ends⟩)
      · exact ⟨_, ⟨r, rule, rfl⟩, Rule.offers_led_iff.2 (.inl ⟨j, (Nat.zero_add j).symm, offers⟩)⟩
      · exact ⟨_, ⟨r, rule, rfl⟩, Rule.offers_led_iff.2 (.inr ⟨rfl, rfl, ends⟩)⟩

theorem endsAt_looped_iff {i : Nat} : g.looped.EndsAt i ↔ i = 0 ∧ g.EndsAt 0 := by
  simp only [EndsAt, rule?_looped, Option.map_eq_some_iff]
  by_cases start : i = 0
  · simp [start]
  · simp only [start, if_false, false_and, iff_false]
    rintro ⟨_, ⟨r, _, rfl⟩, ends⟩
    rw [Rule.hasEnd_led] at ends
    cases ends

theorem language_looped_eq_restarts (ends : g.EndsAt 0) :
    g.looped.language = g.looped.restarts := by
  ext w
  rw [mem_language_iff_reads, mem_restarts]
  constructor
  · rintro ⟨j, run, stop⟩
    obtain ⟨rfl, _⟩ := endsAt_looped_iff.1 stop
    exact run
  · exact fun run => ⟨0, run, endsAt_looped_iff.2 ⟨rfl, ends⟩⟩

/-- A run of a loop to its start goes on to an end of the grammar and then around. -/
theorem Reads.of_looped (ends : g.EndsAt 0) {i j : Nat} {w : List Event}
    (run : Reads g.looped i w j) (start : j = 0) :
    ∃ u v, w = u ++ v ∧ AcceptsFrom g i u ∧ v ∈ g.language∗ := by
  induction run with
  | refl i =>
    subst start
    exact ⟨[], [], rfl, .ofEndsAt ends, Language.nil_mem_kstar _⟩
  | @step i k j a w first _ ih =>
    obtain ⟨u, v, rfl, accepted, around⟩ := ih start
    rcases step_looped_iff.1 first with inner | ⟨_, rfl, rfl, stop⟩
    · exact ⟨a ++ u, v, (List.append_assoc a u v).symm, .ofStep inner accepted, around⟩
    · have once : g.language * g.language∗ ≤ g.language∗ := mul_kstar_le_kstar
      exact ⟨[], u ++ v, rfl, .ofEndsAt stop, once (Language.append_mem_mul accepted around)⟩

/-- A loop that may end at its start accepts words of the grammar one after the other. -/
theorem language_looped (ends : g.EndsAt 0) : g.looped.language = g.language∗ := by
  rw [language_looped_eq_restarts ends]
  apply le_antisymm
  · intro w run
    obtain ⟨u, v, rfl, accepted, around⟩ := Reads.of_looped ends run rfl
    have once : g.language * g.language∗ ≤ g.language∗ := mul_kstar_le_kstar
    exact once (Language.append_mem_mul accepted around)
  · refine kstar_le_restarts fun w accepted => ?_
    obtain ⟨j, run, stop⟩ := mem_language_iff_reads.1 accepted
    have inner : Reads g.looped 0 w j := run.mono fun _ _ _ step => step_looped_iff.2 (.inl step)
    by_cases start : j = 0
    · subst start
      exact inner
    · have back : Step g.looped j [] 0 := step_looped_iff.2 (.inr ⟨start, rfl, rfl, stop⟩)
      have around := inner.trans (.single back)
      rwa [List.append_nil] at around

theorem restarts_looped (ends : g.EndsAt 0) : g.looped.restarts = g.language∗ := by
  rw [← language_looped_eq_restarts ends, language_looped ends]

theorem WellFormed.looped (wf : g.WellFormed) : g.looped.WellFormed := by
  obtain ⟨nonempty, rules⟩ := wellFormed_iff.1 wf
  rw [wellFormed_iff, size_looped]
  refine ⟨nonempty, fun i r rule => ?_⟩
  obtain ⟨s, old, rfl⟩ := Option.map_eq_some_iff.1 ((rule?_looped g i).symm.trans rule)
  split
  · exact rules i s old
  · have led : (s.led 0 (some 0)).Stands (0 + i) g.size := (rules i s old).led
      (Nat.zero_add _).le (fun m exit => Option.some.inj exit ▸ nonempty)
    rwa [Nat.zero_add] at led

theorem wellFormed_oneOf {events : List Event} (steps : .endElement ∉ events) :
    (oneOf events).WellFormed := by
  refine wellFormed_iff.2 ⟨Nat.two_pos, ?_⟩
  refine ((rulesStand_empty 2).push (r := ⟨0, events.map fun e => ⟨e, some 1⟩⟩) ⟨rfl, ?_⟩).push
    (r := ⟨1, [.endElement]⟩) ⟨rfl, by simp⟩
  intro p mem
  obtain ⟨e, inner, rfl⟩ := List.mem_map.1 mem
  exact Production.fits_some.2 ⟨Nat.one_lt_two, fun h => steps (h ▸ inner)⟩

theorem single_eq_oneOf (e : Event) : single e = oneOf [e] := rfl

theorem step_oneOf_iff {events : List Event} {i j : Nat} {u : List Event} :
    Step (oneOf events) i u j ↔
      i = 0 ∧ j = 1 ∧ ∃ e ∈ events, u = (Production.mk e (some 1)).word := by
  constructor
  · rintro ⟨r, rule, p, mem, target, rfl⟩
    match i, rule with
    | 0, rule =>
      cases rule
      obtain ⟨e, inner, rfl⟩ := List.mem_map.1 mem
      cases target
      exact ⟨rfl, rfl, e, inner, rfl⟩
    | 1, rule =>
      cases rule
      cases List.mem_singleton.1 mem
      cases target
    | n + 2, rule => cases rule
  · rintro ⟨rfl, rfl, e, inner, rfl⟩
    exact ⟨_, rfl, _, List.mem_map_of_mem inner, rfl, rfl⟩

theorem restarts_oneOf (events : List Event) : (oneOf events).restarts = 1 := by
  refine le_antisymm ?_ one_le_restarts
  intro w back
  cases back with
  | refl _ => exact Language.nil_mem_one
  | step first rest =>
    obtain ⟨_, rfl, _⟩ := step_oneOf_iff.1 first
    cases rest with
    | step second _ => cases (step_oneOf_iff.1 second).1

theorem language_oneOf {events : List Event} (visible : .epsilon ∉ events) :
    (oneOf events).language = {w | ∃ e ∈ events, w = [e]} := by
  ext w
  rw [mem_language_iff_reads]
  constructor
  · rintro ⟨j, run, ends⟩
    cases run with
    | refl _ =>
      obtain ⟨r, rule, ends⟩ := ends
      cases rule
      obtain ⟨e, _, impossible⟩ := List.mem_map.1 (Rule.hasEnd_iff.1 ends)
      cases impossible
    | step first rest =>
      obtain ⟨_, rfl, e, inner, rfl⟩ := step_oneOf_iff.1 first
      cases rest with
      | refl _ =>
        refine ⟨e, inner, ?_⟩
        rw [List.append_nil, Production.word_of_ne fun h => visible (h ▸ inner)]
      | step second _ => cases (step_oneOf_iff.1 second).1
  · rintro ⟨e, inner, rfl⟩
    have first : Step (oneOf events) 0 [e] 1 := step_oneOf_iff.2 ⟨rfl, rfl, e, inner,
      (Production.word_of_ne (fun h => visible (h ▸ inner)) _).symm⟩
    exact ⟨1, .single first, _, rfl, rfl⟩

theorem restarts_endOnly : endOnly.restarts = 1 := by
  refine le_antisymm ?_ one_le_restarts
  intro w back
  cases back with
  | refl _ => exact Language.nil_mem_one
  | step first _ =>
    obtain ⟨r, rule, p, mem, target, _⟩ := first
    have := lt_size_of_rule? rule
    cases rule
    cases List.mem_singleton.1 mem
    cases target

end ExiSchema.Grammar
