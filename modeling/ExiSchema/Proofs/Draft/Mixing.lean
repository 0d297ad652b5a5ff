import ExiSchema.Proofs.Draft.Chaining
import ExiSchema.Proofs.Grammar.Lingering

/-!
Mixed content in a draft. Text is let in at every rule by a step to the number that the rule carries,
so what is accepted depends on every grammar of the draft carrying the right numbers.
-/

set_option autoImplicit false

namespace ExiSchema.Draft

variable {d : Draft} {id : GrammarId} {g : Grammar}

theorem yields_mixed (here : d.Holds id g) :
    Yields (mixed id) d (fun i d' => d.Stays d' ∧ d'.Holds i g.withText)
      fun f d' => d' = d ∧ f = .memoryAllocation ∧ grammarLimit ≤ d.grammars.size :=
  yields_reads_bind here.grammar_eq_ok (yields_insert g.withText d)

/-- Of any grammar that operations can build, mixed content accepts its words with text put in before,
between and after the events, and no other words. It fails only if no number is left for it. -/
theorem language_of_mixed (reachable : d.Reachable) (here : d.Holds id g) :
    Yields (mixed id) d
      (fun i d' => ∃ h, d'.Holds i h ∧ ∀ v, v ∈ h.language ↔ ∃ w ∈ g.language, Interspersed w v)
      fun f d' => d' = d ∧ f = .memoryAllocation ∧ grammarLimit ≤ d.grammars.size := by
  have wf : g.WellFormed := reachable.sound g here.mem
  refine (yields_mixed here).mono_ok ?_
  rintro i d' ⟨_, there⟩
  exact ⟨g.withText, there, fun v => Grammar.mem_language_withText_iff wf⟩

/-- Text may be put into a grammar that has it already. -/
theorem language_of_mixed_texted :
    texted.Reachable ∧ texted.Holds 1 element.withText ∧
      ∃ i d', mixed 1 texted = .ok i d' ∧ ∃ h, d'.Holds i h ∧
        ∀ v, v ∈ h.language ↔ ∃ w ∈ element.withText.language, Interspersed w v := by
  have reachable : texted.Reachable := .after (.after (.start {}) _) _
  refine ⟨reachable, holds_texted.2, ?_⟩
  exact exists_of_yields_isOk (language_of_mixed reachable holds_texted.2) (by decide +kernel)

end ExiSchema.Draft
