import ExiSchema.Proofs.Draft.Chaining
import ExiSchema.Proofs.Grammar.Branches

/-!
Choices and all groups in a draft. A choice stands for the words of any one of its parts, an all group
for words of its parts in any order and number, and in either every part is there as a copy of its own.
-/

set_option autoImplicit false

open Computability

namespace ExiSchema.Draft

variable {d d' : Draft} {id : GrammarId} {ids : List GrammarId} {g : Grammar}
  {parts : List Grammar}

theorem Holds.readCounted (here : d.Holds id g) :
    d.readCounted id = if g.size < Grammar.sizeLimit then .ok g else .error .memoryAllocation := by
  unfold Draft.readCounted
  rw [here.read]
  rfl

/-- The parts are read one by one; only one that is too large by itself is refused. -/
theorem HoldsAll.readCounted (here : d.HoldsAll ids parts) :
    (ids.mapM d.readCounted = .ok parts ∧ ∀ p ∈ parts, p.size < Grammar.sizeLimit) ∨
      ids.mapM d.readCounted = .error .memoryAllocation ∧
        ∃ p ∈ parts, Grammar.sizeLimit ≤ p.size := by
  induction here with
  | nil => exact .inl ⟨rfl, by simp⟩
  | @cons id g ids gs first _ ih =>
    rw [List.mapM_cons, first.readCounted]
    by_cases small : g.size < Grammar.sizeLimit
    · rw [if_pos small]
      rcases ih with ⟨read, rest⟩ | ⟨read, p, mem, large⟩
      · rw [read]
        exact .inl ⟨rfl, List.forall_mem_cons.2 ⟨small, rest⟩⟩
      · rw [read]
        exact .inr ⟨rfl, p, List.mem_cons_of_mem _ mem, large⟩
    · rw [if_neg small]
      exact .inr ⟨rfl, g, List.mem_cons_self, Nat.not_lt.1 small⟩

/-- Known parts put together in one way or another. -/
theorem yields_counted {compose : List Grammar → Except Fault Grammar}
    (here : d.HoldsAll ids parts)
    (fits : Grammar.FitsOrFails (compose parts) (1 + Grammar.totalSize parts)) :
    Yields (do
        let parts ← ids.mapM countedGrammar
        insert (← ofExcept (compose parts))) d
      (fun id d' => ∃ g, compose parts = .ok g ∧ d'.Holds id g)
      fun f d' => d' = d ∧ d.Scarce 1 (1 + Grammar.totalSize parts) f := by
  have reads := mapM_ofExcept (fun id => countedGrammar_eq id d) ids
  rcases here.readCounted with ⟨read, _⟩ | ⟨read, p, mem, large⟩
  · rw [read] at reads
    refine yields_reads_bind reads ?_
    rcases fits with ⟨g, made⟩ | ⟨failed, large⟩
    · rw [made]
      refine (yields_insert g d).mono ?_ ?_
      · rintro id d' ⟨_, there⟩
        exact ⟨g, rfl, there⟩
      · rintro f d' ⟨same, fault, full⟩
        exact ⟨same, fault, .inl (by omega)⟩
    · rw [failed]
      exact yields_throw ⟨rfl, rfl, .inr large⟩
  · rw [read] at reads
    have part : p.size ≤ Grammar.totalSize parts := List.le_sum_of_mem (List.mem_map_of_mem mem)
    simp only [Yields, bind, EStateM.bind, reads]
    exact ⟨rfl, rfl, .inr (by omega)⟩

/-- A choice accepts the words of all of its parts and no others, and the empty word if it has none.
An all group accepts the words that are made of words of its parts, in any order and number. In both,
a run that is in the copy of a part stays there; only in an all group may it go on at the start rule,
after a word of the part. Either fails only where numbers run out, and then nothing changes. -/
theorem alternatives_of_parts (here : d.HoldsAll ids parts) (wf : ∀ p ∈ parts, p.WellFormed) :
    Yields (choice ids) d
        (fun id d' => ∃ g, d'.Holds id g ∧ g.Branches parts none ∧
          (parts = [] → g.language = 1) ∧
          (parts ≠ [] → g.language = (parts.map Grammar.language).sum))
        (fun f d' => d' = d ∧ d.Scarce 1 (1 + Grammar.totalSize parts) f) ∧
      Yields (all ids) d
        (fun id d' => ∃ g, d'.Holds id g ∧ g.Branches parts (some 0) ∧
          g.language = ((parts.map Grammar.language).sum)∗)
        fun f d' => d' = d ∧ d.Scarce 1 (1 + Grammar.totalSize parts) f := by
  constructor
  · refine (yields_counted here (Grammar.fitsOrFails_choice parts)).mono_ok ?_
    rintro id d' ⟨g, made, there⟩
    refine ⟨g, there, Grammar.branches_choice wf made, ?_, ?_⟩
    · rintro rfl
      cases made
      exact Grammar.language_endOnly
    · intro some
      obtain ⟨p, ps, rfl⟩ := List.exists_cons_of_ne_nil some
      exact Grammar.language_choice wf made
  · refine (yields_counted here (Grammar.fitsOrFails_rounds parts)).mono_ok ?_
    rintro id d' ⟨g, made, there⟩
    exact ⟨g, there, Grammar.branches_rounds wf made, Grammar.language_rounds wf made⟩

theorem alternatives_texted :
    texted.HoldsAll [0, 1] [element, element.withText] ∧
      (∀ p ∈ [element, element.withText], p.WellFormed) ∧
      (∃ i d', choice [0, 1] texted = .ok i d' ∧ ∃ g, d'.Holds i g ∧
        g.Branches [element, element.withText] none ∧
        g.language = element.language + element.withText.language) ∧
      ∃ i d', all [0, 1] texted = .ok i d' ∧ ∃ g, d'.Holds i g ∧
        g.Branches [element, element.withText] (some 0) ∧
        g.language = (element.language + element.withText.language)∗ := by
  have here : texted.HoldsAll [0, 1] [element, element.withText] :=
    .cons holds_texted.1 (.cons holds_texted.2 .nil)
  have wf : ∀ p ∈ [element, element.withText], p.WellFormed := by simpa using wellFormed_texted
  obtain ⟨one, rounds⟩ := alternatives_of_parts here wf
  refine ⟨here, wf, ?_, ?_⟩
  · obtain ⟨i, d', run, g, there, branches, _, language⟩ :=
      exists_of_yields_isOk one (by decide +kernel)
    exact ⟨i, d', run, g, there, branches, by simpa using language⟩
  · obtain ⟨i, d', run, g, there, branches, language⟩ :=
      exists_of_yields_isOk rounds (by decide +kernel)
    exact ⟨i, d', run, g, there, branches, by simpa using language⟩

end ExiSchema.Draft
