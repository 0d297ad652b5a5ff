import ExiSchema.Draft.Overflow
import ExiSchema.Proofs.Draft.Choosing
import ExiSchema.Proofs.Grammar.Sums

/-!
The sums of choices and all groups in a draft. They fit in 32 bits if the sizes of the parts add up to
something that does. Nothing keeps them from growing larger: the places of all parts are added up before
one of them is looked at, and that of the last rule is never looked at.
-/

set_option autoImplicit false

namespace ExiSchema.Draft

variable {d d' : Draft} {id term : GrammarId} {ids : List GrammarId} {g t : Grammar}
  {parts : List Grammar} {n : Nat}

theorem HoldsAll.knownParts (here : d.HoldsAll ids parts) : d.knownParts ids = parts := by
  induction here with
  | nil => rfl
  | @cons id g ids gs first _ ih =>
    rw [Draft.knownParts, show d.grammars[id]? = some g from first]
    exact congrArg (g :: ·) ih

theorem HoldsAll.wellFormed (here : d.HoldsAll ids parts) (reachable : d.Reachable) :
    ∀ p ∈ parts, p.WellFormed :=
  fun p mem => reachable.sound p (mem_of_mapM_read here.read p mem)

/-- Why known parts cannot be put together: no number is left for the result, a part is too large by
itself, or the place of the last part does not fit. In the last case the sum that does not fit has been
formed by then. -/
inductive Oversized (d : Draft) (parts : List Grammar) : Prop where
  | full (none : grammarLimit ≤ d.grammars.size) : Oversized d parts
  | part {p : Grammar} (mem : p ∈ parts) (large : Grammar.sizeLimit ≤ p.size) : Oversized d parts
  | place (large : Grammar.sizeLimit ≤ 1 + Grammar.totalSize parts.dropLast)
      (formed : ∃ s ∈ Grammar.offsetSums 1 parts, Grammar.sizeLimit ≤ s) : Oversized d parts

/-- There is room for one more grammar. -/
theorem yields_insert_room (g : Grammar) (d : Draft) :
    Yields (insert g) d (fun id d' => d.grammars.size < grammarLimit ∧ d'.Holds id g)
      fun f d' => d' = d ∧ f = .memoryAllocation ∧ grammarLimit ≤ d.grammars.size := by
  have room : Yields (insert g) d (fun _ _ => d.grammars.size < grammarLimit) fun _ _ => True := by
    unfold Yields insert
    by_cases room : d.grammars.size < grammarLimit <;> simp [room]
  exact (room.and (yields_insert g d)).mono (fun _ _ ⟨room, _, there⟩ => ⟨room, there⟩)
    fun _ _ ⟨_, failed⟩ => failed

/-- Known parts put together, with the sums that are formed. -/
theorem yields_settled {make : List Grammar → Except Fault Grammar} (here : d.HoldsAll ids parts)
    (settles : Grammar.Settles make parts) :
    Yields (do
        let parts ← ids.mapM countedGrammar
        insert (← ofExcept (make parts))) d
      (fun id d' => d.grammars.size < grammarLimit ∧ Grammar.Numbered parts ∧
        ∃ g, d'.Holds id g ∧ g.Shows parts)
      fun f d' => d' = d ∧ f = .memoryAllocation ∧ d.Oversized parts := by
  have reads := mapM_ofExcept (fun id => countedGrammar_eq id d) ids
  rcases here.readCounted with ⟨read, small⟩ | ⟨read, p, mem, large⟩
  · rw [read] at reads
    refine yields_reads_bind reads ?_
    by_cases overlong : Grammar.Overlong 1 parts
    · rw [settles.fails overlong]
      have large : Grammar.sizeLimit ≤ 1 + Grammar.totalSize parts :=
        overlong.2.trans (Nat.add_le_add_left (Grammar.totalSize_dropLast_le parts) 1)
      have formed := Grammar.exists_offsetSums_of_le small large
      exact yields_throw ⟨rfl, rfl, .place overlong.2 formed⟩
    · have numbered : Grammar.Numbered parts := ⟨small, overlong⟩
      obtain ⟨g, made, shows⟩ := settles.makes numbered
      rw [made]
      refine (yields_insert_room g d).mono ?_ ?_
      · rintro id d' ⟨room, there⟩
        exact ⟨room, numbered, g, there, shows⟩
      · rintro f d' ⟨same, fault, full⟩
        exact ⟨same, fault, .full full⟩
  · rw [read] at reads
    simp only [Yields, bind, EStateM.bind, reads]
    exact ⟨rfl, rfl, .part mem large⟩

theorem HoldsAll.overflows_iff (here : d.HoldsAll ids parts) :
    ∀ op ∈ [Operation.choice ids, .all ids], op.overflows d = true ↔
      ∃ s ∈ Grammar.offsetSums 1 parts, Grammar.sizeLimit ≤ s := by
  simp [Operation.overflows, here.knownParts]

/-- So many copies of a grammar that the last of them starts at a place that fits and ends at one that
does not. -/
theorem exists_overflow_of_copies (here : d.Holds id g) (room : d.grammars.size < grammarLimit)
    (small : g.size < Grammar.sizeLimit) (start : 1 + (n - 1) * g.size < Grammar.sizeLimit)
    (stop : Grammar.sizeLimit ≤ 1 + n * g.size) :
    (∃ s ∈ Grammar.sums (List.replicate n g), Grammar.sizeLimit ≤ s) ∧
      (∃ i d', choice (List.replicate n id) d = .ok i d') ∧
      ∃ i d', all (List.replicate n id) d = .ok i d' := by
  have copies := holdsAll_replicate here n
  have small : ∀ p ∈ List.replicate n g, p.size < Grammar.sizeLimit := fun p mem =>
    List.eq_of_mem_replicate mem ▸ small
  have fits : ¬Grammar.sizeLimit ≤ 1 + Grammar.totalSize (List.replicate n g).dropLast := by
    rw [List.dropLast_replicate, Grammar.totalSize_replicate]
    exact Nat.not_le.2 start
  have settled : ¬d.Oversized (List.replicate n g) := by
    rintro (none | ⟨mem, large⟩ | ⟨large, _⟩)
    · exact Nat.not_le.2 room none
    · exact Nat.not_le.2 (small _ mem) large
    · exact fits large
  have succeeds {make : List Grammar → Except Fault Grammar}
      (settles : Grammar.Settles make (List.replicate n g)) := exists_of_yields
    ((yields_settled copies settles).mono_fails fun _ _ failed => settled failed.2.2)
  refine ⟨?_, ?_, ?_⟩
  · rw [← Grammar.totalSize_replicate] at stop
    obtain ⟨s, mem, large⟩ := Grammar.exists_offsetSums_of_le small stop
    exact ⟨s, List.mem_append_left _ mem, large⟩
  · obtain ⟨i, d', run, _⟩ := succeeds (Grammar.settles_choice _)
    exact ⟨i, d', run⟩
  · obtain ⟨i, d', run, _⟩ := succeeds (Grammar.settles_rounds _)
    exact ⟨i, d', run⟩

/-- A term that must come exactly so many times is written out so many times. -/
theorem exists_after_particle (here : d.Holds term t) (many : 1 < n) (few : n ≤ copyLimit)
    (room : d.grammars.size < grammarLimit) (fits : n * t.size < Grammar.sizeLimit) :
    ∃ g, ((Operation.particle n (.bounded n) term).after d).grammars = d.grammars.push g ∧
      g.size = n * t.size := by
  obtain ⟨k, rfl⟩ : ∃ k, n = k + 2 := ⟨n - 2, by omega⟩
  have places : Grammar.totalSize (List.replicate (k + 2) t).dropLast < Grammar.sizeLimit := by
    refine (Grammar.totalSize_dropLast_le _).trans_lt ?_
    rwa [Grammar.totalSize_replicate]
  obtain ⟨g, made⟩ := Grammar.exists_sequence places
  have chained : particle (k + 2) (.bounded (k + 2)) term d = chain (List.replicate (k + 2) term) d := by
    simp only [particle, bind, EStateM.bind, here.grammar_eq_ok, checkCopies, Nat.lt_irrefl,
      if_false, if_neg (Nat.not_lt.2 few)]
    rfl
  have built : chain (List.replicate (k + 2) term) d = insert g d := by
    simp only [chain, bind, EStateM.bind, (holdsAll_replicate here (k + 2)).grammars_eq_ok, made]
    rfl
  refine ⟨g, ?_, ?_⟩
  · simp only [Operation.after, Operation.run, bind, EStateM.bind, chained.trans built, insert,
      if_pos room]
    rfl
  · rw [← Grammar.totalSize_replicate]
    exact Grammar.size_sequence made

/-- The sums of a choice and of an all group of known parts fit in 32 bits if and only if the sizes of
the parts add up to something that does, up to the first part that is too large by itself. Where they
do not fit, the parts may be put together all the same: what is looked at is each part by itself and
the places of the parts, not what lies behind the place of the last one. If so, the sums are in the
result. If not, nothing has changed, but a sum that does not fit has been formed before a place is
refused. -/
theorem Reachable.sums_of_alternatives (reachable : d.Reachable) (here : d.HoldsAll ids parts) :
    ((∃ s ∈ Grammar.sums parts, Grammar.sizeLimit ≤ s) ↔
        Grammar.sizeLimit ≤ 1 + Grammar.totalSize (parts.takeWhile Grammar.isCountable)) ∧
      ∀ op ∈ [Operation.choice ids, .all ids],
        (op.overflows d = true ↔ ∃ s ∈ Grammar.sums parts, Grammar.sizeLimit ≤ s) ∧
        Yields op.run d
          (fun outcome d' => d.grammars.size < grammarLimit ∧ Grammar.Numbered parts ∧
            ∃ id g, outcome = .grammar id ∧ d'.Holds id g ∧ g.Shows parts)
          fun f d' => d' = d ∧ f = .memoryAllocation ∧ d.Oversized parts := by
  have formed := Grammar.exists_sums_iff (here.wellFormed reachable)
  have outcome {action : Drafting GrammarId}
      (settled : Yields action d
        (fun id d' => d.grammars.size < grammarLimit ∧ Grammar.Numbered parts ∧
          ∃ g, d'.Holds id g ∧ g.Shows parts)
        fun f d' => d' = d ∧ f = .memoryAllocation ∧ d.Oversized parts) :
      Yields (do return Outcome.grammar (← action)) d
        (fun outcome d' => d.grammars.size < grammarLimit ∧ Grammar.Numbered parts ∧
          ∃ id g, outcome = .grammar id ∧ d'.Holds id g ∧ g.Shows parts)
        fun f d' => d' = d ∧ f = .memoryAllocation ∧ d.Oversized parts :=
    settled.bind fun id d' ⟨room, numbered, g, there, shows⟩ =>
      yields_pure ⟨room, numbered, id, g, rfl, there, shows⟩
  refine ⟨formed.trans (Grammar.exists_offsetSums_iff (by decide)), ?_⟩
  intro op mem
  refine ⟨(here.overflows_iff op mem).trans formed.symm, ?_⟩
  simp only [List.mem_cons, List.not_mem_nil, or_false] at mem
  rcases mem with rfl | rfl
  · exact outcome (yields_settled here (Grammar.settles_choice parts))
  · exact outcome (yields_settled here (Grammar.settles_rounds parts))

theorem sums_of_alternatives_texted :
    texted.Reachable ∧ texted.HoldsAll [0, 1] [element, element.withText] ∧
      (∀ s ∈ Grammar.sums [element, element.withText], s < Grammar.sizeLimit) ∧
      ∀ op ∈ [Operation.choice [0, 1], .all [0, 1]], op.overflows texted = false ∧
        ∃ id d' g, op.run texted = .ok (.grammar id) d' ∧ d'.Holds id g ∧
          g.Shows [element, element.withText] := by
  have reachable : texted.Reachable := .after (.after (.start {}) _) _
  have here : texted.HoldsAll [0, 1] [element, element.withText] :=
    .cons holds_texted.1 (.cons holds_texted.2 .nil)
  obtain ⟨formed, settled⟩ := reachable.sums_of_alternatives here
  have fit : ¬∃ s ∈ Grammar.sums [element, element.withText], Grammar.sizeLimit ≤ s :=
    formed.not.2 (by decide +kernel)
  refine ⟨reachable, here, by simpa using fit, fun op mem => ?_⟩
  obtain ⟨overflows, made⟩ := settled op mem
  refine ⟨Bool.eq_false_iff.2 (overflows.not.2 fit), ?_⟩
  have good : isOk (op.run texted) = true := by
    simp only [List.mem_cons, List.not_mem_nil, or_false] at mem
    rcases mem with rfl | rfl <;> decide +kernel
  obtain ⟨outcome, d', run, _, _, id, g, rfl, there, shows⟩ := exists_of_yields_isOk made good
  exact ⟨id, d', g, run, there, shows⟩

/-- A draft with a text value, and the value written out as often as a term may be. -/
def repeatedValue : Draft :=
  (Operation.particle 0x10000 (.bounded 0x10000) 0).after
    ((Operation.simpleContent "string").after (start {}))

theorem exists_repeatedValue :
    ∃ g, repeatedValue.Holds 1 g ∧ g.size = 0x20000 ∧ repeatedValue.grammars.size = 2 := by
  have value : ((Operation.simpleContent "string").after (start {})).grammars =
      #[.single (.characters .string)] := by
    decide +kernel
  have here : ((Operation.simpleContent "string").after (start {})).Holds 0
      (.single (.characters .string)) := by
    rw [Holds, value]
    rfl
  obtain ⟨g, grammars, size⟩ := @exists_after_particle _ _ _ 0x10000 here (by decide) (by decide)
    (by rw [value]; decide) (by decide)
  rw [value] at grammars
  change repeatedValue.grammars = _ at grammars
  refine ⟨g, ?_, size, ?_⟩
  · rw [Holds, grammars]
    rfl
  · rw [grammars]
    rfl

/-- A choice and an all group of 32768 copies of a grammar with 131072 rules. -/
theorem sums_of_repeatedValue :
    ∃ g, repeatedValue.Reachable ∧
      repeatedValue.HoldsAll (List.replicate 0x8000 1) (List.replicate 0x8000 g) ∧
      (∃ s ∈ Grammar.sums (List.replicate 0x8000 g), Grammar.sizeLimit ≤ s) ∧
      (∃ id d', choice (List.replicate 0x8000 1) repeatedValue = .ok id d') ∧
      ∃ id d', all (List.replicate 0x8000 1) repeatedValue = .ok id d' := by
  obtain ⟨g, here, size, count⟩ := exists_repeatedValue
  exact ⟨g, .after (.after (.start {}) _) _, holdsAll_replicate here 0x8000,
    @exists_overflow_of_copies _ _ _ 0x8000 here (by rw [count]; decide) (by rw [size]; decide)
      (by rw [size]; decide) (by rw [size]; decide)⟩

end ExiSchema.Draft
