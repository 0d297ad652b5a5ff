import ExiSchema.Proofs.Grammar.Derived

/-!
Steps that lead back to the rule that they leave. Where text is let in, every rule gets such a step,
and words are accepted with text anywhere in them. Where events are let in at the start, only the start
rule gets them, and they come first unless a run comes back there.
-/

set_option autoImplicit false

open Computability

namespace ExiSchema

/-- The second word is the first with text put in, as often as wanted and wherever wanted. -/
inductive Interspersed : List Event → List Event → Prop where
  | nil : Interspersed [] []
  | keep {w v : List Event} (e : Event) (rest : Interspersed w v) : Interspersed (e :: w) (e :: v)
  | text {w v : List Event} (rest : Interspersed w v) : Interspersed w (.charactersUntyped :: v)

theorem Interspersed.append (u : List Event) {w v : List Event} (rest : Interspersed w v) :
    Interspersed (u ++ w) (u ++ v) := by
  induction u with
  | nil => exact rest
  | cons e u ih => exact .keep e ih

/-- The words of one event each. -/
def oneOfEvents (events : List Event) : Language Event := {w | ∃ e ∈ events, w = [e]}

namespace Grammar

variable {g h : Grammar} {lets : Nat → Event → Prop} {events : List Event}

/-- The grammar `h` is `g` with steps that read one event and lead back to the rule that they leave. -/
structure Lingers (h g : Grammar) (lets : Nat → Event → Prop) : Prop where
  step : ∀ i u j, Step h i u j ↔ Step g i u j ∨ j = i ∧ i < g.size ∧ ∃ e, lets i e ∧ u = [e]
  ends : ∀ i, h.EndsAt i ↔ g.EndsAt i

theorem Lingers.stay (lingers : Lingers h g lets) {i : Nat} {e : Event} (lt : i < g.size)
    (here : lets i e) : Step h i [e] i :=
  (lingers.step i [e] i).2 (.inr ⟨rfl, lt, e, here, rfl⟩)

theorem Lingers.reads (lingers : Lingers h g lets) {i j : Nat} {w : List Event}
    (run : Reads g i w j) : Reads h i w j :=
  run.mono fun i u j step => (lingers.step i u j).2 (.inl step)

theorem Lingers.acceptsFrom (lingers : Lingers h g lets) {i : Nat} {w : List Event}
    (run : AcceptsFrom g i w) : AcceptsFrom h i w := by
  obtain ⟨j, run, ends⟩ := acceptsFrom_iff_reads.1 run
  exact acceptsFrom_iff_reads.2 ⟨j, lingers.reads run, (lingers.ends j).2 ends⟩

theorem Rule.offers_append_iff {r : Rule} {more : List Production} {u : List Event} {j : Nat} :
    Rule.Offers ⟨r.id, r.productions ++ more⟩ u j ↔
      r.Offers u j ∨ ∃ p ∈ more, p.target = some j ∧ u = p.word := by
  simp [Rule.Offers, or_and_right, exists_or]

theorem Rule.hasEnd_append {r : Rule} {more : List Production}
    (goesOn : ∀ p ∈ more, p.target ≠ none) :
    Rule.hasEnd ⟨r.id, r.productions ++ more⟩ = r.hasEnd := by
  have none : more.any Production.isTerminal = false := by
    simp only [List.any_eq_false, Production.isTerminal_iff]
    rintro p mem rfl
    exact goesOn _ mem rfl
  rw [Rule.hasEnd, List.any_append, none, Bool.or_false]
  rfl

theorem lingers_of_rules {more : Nat → Rule → List Production}
    (rules : ∀ i, h.rule? i = (g.rule? i).map fun r => ⟨r.id, r.productions ++ more i r⟩)
    (loops : ∀ i r, g.rule? i = some r → ∀ p, p ∈ more i r ↔ ∃ e, lets i e ∧ p = ⟨e, some i⟩)
    (visible : ∀ i e, lets i e → e ≠ .epsilon) : Lingers h g lets := by
  constructor
  · intro i u j
    simp only [Step, rules, Option.map_eq_some_iff]
    constructor
    · rintro ⟨_, ⟨r, rule, rfl⟩, offers⟩
      rcases Rule.offers_append_iff.1 offers with inner | ⟨p, mem, target, rfl⟩
      · exact .inl ⟨r, rule, inner⟩
      · obtain ⟨e, here, rfl⟩ := (loops i r rule p).1 mem
        cases target
        exact .inr ⟨rfl, lt_size_of_rule? rule, e, here, Production.word_of_ne (visible i e here) _⟩
    · rintro (⟨r, rule, inner⟩ | ⟨rfl, lt, e, here, rfl⟩)
      · exact ⟨_, ⟨r, rule, rfl⟩, Rule.offers_append_iff.2 (.inl inner)⟩
      · obtain ⟨r, rule⟩ := rule?_eq_some_of_lt lt
        have mem := (loops j r rule ⟨e, some j⟩).2 ⟨e, here, rfl⟩
        have word := Production.word_of_ne (visible j e here) (some j)
        exact ⟨_, ⟨r, rule, rfl⟩, Rule.offers_append_iff.2 (.inr ⟨_, mem, rfl, word.symm⟩)⟩
  · intro i
    have same (r : Rule) (rule : g.rule? i = some r) :
        Rule.hasEnd ⟨r.id, r.productions ++ more i r⟩ = r.hasEnd := by
      apply Rule.hasEnd_append
      intro p mem
      obtain ⟨e, _, rfl⟩ := (loops i r rule p).1 mem
      exact Option.some_ne_none i
    simp only [EndsAt, rules, Option.map_eq_some_iff]
    constructor
    · rintro ⟨_, ⟨r, rule, rfl⟩, ends⟩
      exact ⟨r, rule, same r rule ▸ ends⟩
    · rintro ⟨r, rule, ends⟩
      exact ⟨_, ⟨r, rule, rfl⟩, (same r rule).trans ends⟩

theorem rule?_withText (g : Grammar) (i : Nat) :
    g.withText.rule? i =
      (g.rule? i).map fun r => ⟨r.id, r.productions ++ [⟨.charactersUntyped, some r.id⟩]⟩ :=
  Array.getElem?_map ..

/-- In a well-formed grammar the text leads back to the rule, because its id says where it stands. -/
theorem lingers_withText (wf : g.WellFormed) :
    Lingers g.withText g fun _ e => e = .charactersUntyped := by
  apply lingers_of_rules (rule?_withText g)
  · intro i r rule p
    simp [wf.numbered i r rule]
  · rintro i e rfl
    simp

/-- A run that reads an event first does so from some rule to another. -/
theorem AcceptsFrom.exists_of_cons {i : Nat} {e : Event} {w word : List Event}
    (run : AcceptsFrom g i word) (first : word = e :: w) :
    ∃ j, Reads g i [e] j ∧ AcceptsFrom g j w := by
  induction run with
  | stop _ _ => cases first
  | jump rule step _ ih =>
    obtain ⟨j, reads, rest⟩ := ih first
    exact ⟨j, .step ⟨_, rule, _, step, rfl, rfl⟩ reads, rest⟩
  | @read i j r e' w' rule step visible rest _ =>
    cases first
    have read : Step g i [e] j := ⟨r, rule, _, step, rfl, (Production.word_of_ne visible _).symm⟩
    exact ⟨j, .single read, rest⟩

theorem AcceptsFrom.lt_size {i : Nat} {w : List Event} (run : AcceptsFrom g i w) : i < g.size := by
  by_contra out
  exact not_acceptsFrom_of_le (Nat.not_lt.1 out) run

theorem exists_interspersed_of_acceptsFrom (wf : g.WellFormed) {i : Nat} {v : List Event}
    (run : AcceptsFrom g.withText i v) : ∃ w, AcceptsFrom g i w ∧ Interspersed w v := by
  have lingers := lingers_withText wf
  induction run using AcceptsFrom.inductionOnSteps with
  | stop i ends => exact ⟨[], .ofEndsAt ((lingers.ends i).1 ends), .nil⟩
  | step i j u v first _ ih =>
    obtain ⟨w, accepted, inserted⟩ := ih
    rcases (lingers.step i u j).1 first with inner | ⟨rfl, _, e, rfl, rfl⟩
    · exact ⟨u ++ w, .ofStep inner accepted, inserted.append u⟩
    · exact ⟨w, accepted, .text inserted⟩

theorem acceptsFrom_of_interspersed (wf : g.WellFormed) {w v : List Event}
    (inserted : Interspersed w v) {i : Nat} (run : AcceptsFrom g i w) :
    AcceptsFrom g.withText i v := by
  have lingers := lingers_withText wf
  induction inserted generalizing i with
  | nil => exact lingers.acceptsFrom run
  | keep e _ ih =>
    obtain ⟨j, reads, rest⟩ := run.exists_of_cons rfl
    exact .ofReads (lingers.reads reads) (ih rest)
  | text _ ih => exact .ofStep (lingers.stay run.lt_size rfl) (ih run)

/-- With text let in, a grammar accepts its words with text put in anywhere, and nothing else. -/
theorem mem_language_withText_iff (wf : g.WellFormed) {v : List Event} :
    v ∈ g.withText.language ↔ ∃ w ∈ g.language, Interspersed w v :=
  ⟨exists_interspersed_of_acceptsFrom wf,
    fun ⟨_, run, inserted⟩ => acceptsFrom_of_interspersed wf inserted run⟩

theorem rule?_withStartEvents (g : Grammar) (events : List Event) (i : Nat) :
    (g.withStartEvents events).rule? i = (g.rule? i).map fun r =>
      ⟨r.id, r.productions ++ if i = 0 then events.map fun e => ⟨e, some 0⟩ else []⟩ := by
  by_cases start : i = 0
  · subst start
    simp [withStartEvents, rule?_modifyStart_zero]
  · simp [withStartEvents, rule?_modifyStart_of_ne _ start, start]

theorem lingers_withStartEvents (visible : .epsilon ∉ events) :
    Lingers (g.withStartEvents events) g fun i e => i = 0 ∧ e ∈ events := by
  apply lingers_of_rules (rule?_withStartEvents g events)
  · intro i r _ p
    by_cases start : i = 0
    · simp [start, eq_comm]
    · simp [start]
  · rintro i e ⟨_, mem⟩ rfl
    exact visible mem

theorem oneOfEvents_kstar_mul_le (l : Language Event) :
    oneOfEvents events * ((oneOfEvents events)∗ * l) ≤ (oneOfEvents events)∗ * l := by
  rw [← mul_assoc]
  exact mul_le_mul_left mul_kstar_le_kstar l

/-- Events let in at the start come first, as often as wanted, if no step leads back there. -/
theorem language_withStartEvents (visible : .epsilon ∉ events) (nonempty : 0 < g.size)
    (never : ∀ i, ¬ g.Leads i 0) :
    (g.withStartEvents events).language = (oneOfEvents events)∗ * g.language := by
  have lingers := @lingers_withStartEvents g events visible
  have none_first (l : Language Event) : l ≤ (oneOfEvents events)∗ * l :=
    le_mul_of_one_le_left' one_le_kstar
  apply le_antisymm
  · -- a run that has left the start goes on as without the events
    have main (i : Nat) (w : List Event) (run : AcceptsFrom (g.withStartEvents events) i w) :
        AcceptsFrom g i w ∨ i = 0 ∧ w ∈ (oneOfEvents events)∗ * g.language := by
      induction run using AcceptsFrom.inductionOnSteps with
      | stop i ends => exact .inl (.ofEndsAt ((lingers.ends i).1 ends))
      | step i j u v first _ ih =>
        rcases (lingers.step i u j).1 first with inner | ⟨rfl, _, e, ⟨rfl, mem⟩, rfl⟩
        · rcases ih with accepted | ⟨rfl, _⟩
          · exact .inl (.ofStep inner accepted)
          · obtain ⟨r, rule, p, mem, target, _⟩ := inner
            exact absurd ⟨r, p, rule, mem, target⟩ (never i)
        · have rest : v ∈ (oneOfEvents events)∗ * g.language := by
            rcases ih with accepted | ⟨_, word⟩
            · exact none_first _ accepted
            · exact word
          have more := Language.append_mem_mul (show [e] ∈ oneOfEvents events from ⟨e, mem, rfl⟩) rest
          exact .inr ⟨rfl, oneOfEvents_kstar_mul_le _ more⟩
    intro w run
    rcases main 0 w run with accepted | ⟨_, word⟩
    · exact none_first _ accepted
    · exact word
  · have around : oneOfEvents events ≤ (g.withStartEvents events).restarts := by
      rintro _ ⟨e, mem, rfl⟩
      exact .single (lingers.stay nonempty ⟨rfl, mem⟩)
    have kept : g.language ≤ (g.withStartEvents events).language := fun _ run =>
      lingers.acceptsFrom run
    exact (mul_le_mul' (kstar_le_restarts around) kept).trans restarts_mul_language_le

end Grammar

end ExiSchema
