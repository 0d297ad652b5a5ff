import ExiSchema.Proofs.Draft.Reaching
import ExiSchema.Proofs.Grammar.Trim

/-!
The shape of the grammars of a draft. Whatever operations a draft comes from, each of its grammars is
numbered as it stands, leads nowhere but to its own rules, and has no rule that a run does not come
to or does not come away from.
-/

set_option autoImplicit false

namespace ExiSchema

namespace Store

/-- Every grammar is well-formed, and none has a rule too many. -/
def Trimmed (s : Store) : Prop := ∀ g ∈ s.grammars, g.WellFormed ∧ g.Trim

theorem trimmed_initial : initial.Trimmed := fun g mem => absurd mem (Array.not_mem_empty g)

theorem Step.trimmed {s t : Store} (step : Step s t) (trimmed : s.Trimmed) : t.Trimmed := by
  cases step with
  | tables _ => exact trimmed
  | insert derived _ =>
    intro g mem
    have wf (p : Grammar) (here : p ∈ s.grammars) : p.WellFormed := (trimmed p here).1
    rcases Array.mem_push.1 mem with old | rfl
    · exact trimmed g old
    · exact ⟨derived.wellFormed wf, derived.trim wf fun p here => (trimmed p here).2⟩

end Store

theorem Grammar.Trim.exists_word {g : Grammar} (trim : g.Trim) (wf : g.WellFormed) :
    ∃ w, w ∈ g.language := (Grammar.trim_iff.1 trim 0 wf.nonempty).2

namespace Draft

/-- After any operations, with any arguments and whether or not they succeeded, every grammar has its
rules in place and no dead rule among them, and it accepts some word. -/
theorem Reachable.wellFormed_trim {d : Draft} (reachable : d.Reachable) :
    ∀ g ∈ d.grammars, g.WellFormed ∧ g.Trim ∧ ∃ w, w ∈ g.language := by
  have all : d.store.Trimmed :=
    reachable.invariant Store.trimmed_initial fun _ _ step => step.trimmed
  intro g mem
  obtain ⟨wf, trim⟩ := all g mem
  exact ⟨wf, trim, trim.exists_word wf⟩

/-- A draft with a loop over an element in mixed content, after a repetition that was refused. -/
def looping : Draft :=
  (Operation.mixed 3).after
    ((Operation.particle 2 (.bounded 1) 0).after
      ((Operation.particle 1 .unbounded 0).after
        ((Operation.elementTerm ⟨"urn:a", "x"⟩).after (start {}))))

theorem looping_wellFormed_trim : looping.Reachable ∧ looping.grammars.size = 5 ∧
    ∀ g ∈ looping.grammars, g.WellFormed ∧ g.Trim ∧ ∃ w, w ∈ g.language := by
  have reachable : looping.Reachable := .after (.after (.after (.after (.start {}) _) _) _) _
  exact ⟨reachable, by decide +kernel, reachable.wellFormed_trim⟩

end Draft

end ExiSchema
