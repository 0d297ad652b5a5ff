import ExiSchema.Proofs.Draft.Content
import ExiSchema.Proofs.Grammar.Segments
import ExiSchema.Proofs.Model.Faults

/-!
Sequences and repetitions in a draft. Only the grammars that they are made of matter: whatever else
stands in the draft, the result is what the parts make, and it is added behind the grammars that are
there.
-/

set_option autoImplicit false

open Computability

namespace ExiSchema

namespace Draft

variable {d d' : Draft} {id term : GrammarId} {ids : List GrammarId} {g t : Grammar}
  {parts : List Grammar}

/-- Every grammar keeps its number. -/
def Stays (d d' : Draft) : Prop := ∀ id g, d.Holds id g → d'.Holds id g

theorem Stays.refl (d : Draft) : d.Stays d := fun _ _ here => here

theorem Stays.trans {e : Draft} (first : d.Stays d') (second : d'.Stays e) : d.Stays e :=
  fun id g here => second id g (first id g here)

theorem Stays.holdsAll (stays : d.Stays d') (here : d.HoldsAll ids parts) : d'.HoldsAll ids parts :=
  List.Forall₂.imp (fun id g => stays id g) here

/-- The grammar is added, or there is no number left for it. -/
theorem yields_insert (g : Grammar) (d : Draft) :
    Yields (insert g) d (fun id d' => d.Stays d' ∧ d'.Holds id g)
      fun f d' => d' = d ∧ f = .memoryAllocation ∧ grammarLimit ≤ d.grammars.size := by
  unfold Yields insert
  by_cases room : d.grammars.size < grammarLimit
  · simp only [if_pos room]
    refine ⟨fun id g here => ?_, Array.getElem?_push_size⟩
    have lt : id < d.grammars.size := (Array.getElem?_eq_some_iff.1 here).1
    exact (Array.getElem?_push_lt lt).trans (Array.getElem?_eq_getElem lt ▸ here)
  · simp only [if_neg room]
    exact ⟨trivial, trivial, by omega⟩

/-- Nothing can be added, or the parts are too large to be put one behind the other. -/
structure Crowded (d : Draft) (parts : List Grammar) (f : Fault) : Prop where
  fault : f = .memoryAllocation
  cause : grammarLimit ≤ d.grammars.size ∨ Grammar.sizeLimit ≤ Grammar.totalSize parts.dropLast

theorem Crowded.of_sequence {f : Fault} (failed : Grammar.sequence parts = .error f) :
    d.Crowded parts f := by
  refine ⟨Grammar.sequence_error failed, .inr ?_⟩
  by_contra room
  obtain ⟨g, made⟩ := Grammar.exists_sequence (Nat.not_le.1 room)
  cases failed.symm.trans made

theorem yields_insert_crowded (g : Grammar) (parts : List Grammar) :
    Yields (insert g) d (fun id d' => d.Stays d' ∧ d'.Holds id g)
      fun f d' => d' = d ∧ d.Crowded parts f :=
  (yields_insert g d).mono_fails fun _ _ ⟨same, fault, full⟩ =>
    ⟨same, fault, .inl full⟩

/-- The result is the sequence of the parts, and all stays as it was if there is none. -/
def Sequences (action : Drafting GrammarId) (d : Draft) (parts : List Grammar) : Prop :=
  Yields action d
    (fun id d' => d.Stays d' ∧ ∃ g, Grammar.sequence parts = .ok g ∧ d'.Holds id g)
    fun f d' => d' = d ∧ d.Crowded parts f

theorem sequences_chain (here : d.HoldsAll ids parts) : Sequences (chain ids) d parts := by
  refine yields_reads_bind here.grammars_eq_ok ?_
  cases made : Grammar.sequence parts with
  | ok g =>
    exact (yields_insert_crowded g parts).mono_ok
      (fun _ _ ⟨stays, there⟩ => ⟨stays, g, rfl, there⟩)
  | error f =>
    exact yields_throw ⟨rfl, .of_sequence made⟩

theorem sequences_sequence (here : d.HoldsAll ids parts) : Sequences (sequence ids) d parts := by
  cases here with
  | nil =>
    exact (yields_insert_crowded .endOnly []).mono_ok
      (fun _ _ ⟨stays, there⟩ => ⟨stays, .endOnly, Grammar.sequence_nil, there⟩)
  | @cons id p _ _ first rest =>
    cases rest with
    | nil =>
      exact yields_reads_bind (first.grammar_eq_ok)
        (yields_pure ⟨.refl d, p, Grammar.sequence_singleton p, first⟩)
    | cons second rest => exact sequences_chain (.cons first (.cons second rest))

/-- The grammars put one behind the other, in either way: every part is there in its place, and the
words are those of the parts in their order. Nothing changes if that fails, and it fails only where
numbers run out. -/
theorem joins_of_parts (here : d.HoldsAll ids parts) (wf : ∀ p ∈ parts, p.WellFormed) :
    ∀ action ∈ [chain ids, sequence ids], Yields action d
      (fun id d' => ∃ g, d'.Holds id g ∧ g.Joins parts)
      fun f d' => d' = d ∧ d.Crowded parts f := by
  have joins {action : Drafting GrammarId} (spec : Sequences action d parts) : Yields action d
      (fun id d' => ∃ g, d'.Holds id g ∧ g.Joins parts) fun f d' => d' = d ∧ d.Crowded parts f := by
    refine Yields.mono spec ?_ fun _ _ bad => bad
    rintro id d' ⟨_, g, made, there⟩
    exact ⟨g, there, Grammar.joins_of_sequence wf made⟩
  intro action mem
  simp only [List.mem_cons, List.not_mem_nil, or_false] at mem
  rcases mem with rfl | rfl
  · exact joins (sequences_chain here)
  · exact joins (sequences_sequence here)

/-- A draft with an element, and the element with text around it. -/
def texted : Draft :=
  (Operation.mixed 0).after ((Operation.elementTerm ⟨"", "a"⟩).after (start {}))

def element : Grammar := .single (.startElement ⟨0, 0⟩)

theorem holds_texted : texted.Holds 0 element ∧ texted.Holds 1 element.withText := by
  unfold Holds
  decide +kernel

theorem wellFormed_texted : element.WellFormed ∧ element.withText.WellFormed := by
  have sound : texted.store.Sound := (Reachable.after (.after (.start {}) _) _).sound
  exact ⟨sound _ holds_texted.1.mem, sound _ holds_texted.2.mem⟩

theorem joins_texted : ∃ id d' g, chain [0, 1] texted = .ok id d' ∧ d'.Holds id g ∧
    g.Joins [element, element.withText] := by
  obtain ⟨id, d', run⟩ := @exists_of_isOk _ (chain [0, 1] texted) (by decide +kernel)
  have wf : ∀ p ∈ [element, element.withText], p.WellFormed := by simpa using wellFormed_texted
  obtain ⟨g, there, joins⟩ := (joins_of_parts (.cons holds_texted.1 (.cons holds_texted.2 .nil)) wf
    (chain [0, 1]) (by simp)).ok_of_eq run
  exact ⟨id, d', g, run, there, joins⟩

/-- No grammars make one rule, and the ends of all parts but the last are not there any more. -/
theorem chain_adds_and_redirects :
    (∃ id d', chain [] texted = .ok id d' ∧ ∃ g, d'.Holds id g ∧ g.size ≠ Grammar.totalSize []) ∧
      ∃ id d', chain [0, 0] texted = .ok id d' ∧ ∃ g, d'.Holds id g ∧
        g.rule? 1 ≠ (element.rule? 1).map (·.shifted 0) := by
  have one : Yields (chain []) texted (fun id d' => d'.grammars[id]? = some .endOnly)
      fun _ _ => False := by
    decide +kernel
  have two : Yields (chain [0, 0]) texted
      (fun id d' => (d'.grammars[id]?.bind (·.rule? 1)) = some ⟨1, [.epsilon 2]⟩)
      fun _ _ => False := by
    decide +kernel
  obtain ⟨id, d', run, there⟩ := exists_of_yields one
  obtain ⟨id', d'', run', there'⟩ := exists_of_yields two
  obtain ⟨g, here, rule⟩ := Option.bind_eq_some_iff.1 there'
  refine ⟨⟨id, d', run, .endOnly, there, by decide⟩, id', d'', run', g, here, ?_⟩
  rw [rule]
  decide

/-- A result is the grammar that is to be built. -/
def Gives (action : Drafting GrammarId) (d : Draft) (built : Except Fault Grammar) : Prop :=
  Yields action d (fun id d' => d.Stays d' ∧ ∃ g, built = .ok g ∧ d'.Holds id g) fun _ _ => True

theorem gives_insert (g : Grammar) (d : Draft) : Gives (insert g) d (.ok g) :=
  (yields_insert g d).mono (fun _ _ ⟨stays, here⟩ => ⟨stays, g, rfl, here⟩) fun _ _ _ => trivial

theorem gives_pure {built : Except Fault Grammar} (eq : built = .ok g) (here : d.Holds id g) :
    Gives (pure id) d built :=
  yields_pure ⟨.refl d, g, eq, here⟩

theorem gives_throw {fault : Fault} {built : Except Fault Grammar} : Gives (throw fault) d built :=
  yields_throw trivial

theorem Gives.bind {action : Drafting GrammarId} {next : GrammarId → Drafting GrammarId}
    {built : Except Fault Grammar} (first : Gives action d (.ok g))
    (rest : ∀ id d', d.Stays d' → d'.Holds id g → Gives (next id) d' built) :
    Gives (action >>= next) d built := by
  refine Yields.bind first ?_
  rintro id d' ⟨stays, _, same, here⟩
  cases same
  refine (rest id d' stays here).mono_ok ?_
  rintro id' d'' ⟨later, built⟩
  exact ⟨stays.trans later, built⟩

theorem gives_grammar_bind {next : Grammar → Drafting GrammarId} {built : Except Fault Grammar}
    (here : d.Holds id g) (rest : Gives (next g) d built) : Gives (grammar id >>= next) d built :=
  yields_reads_bind (here.grammar_eq_ok) rest

theorem gives_joined (here : d.HoldsAll ids parts) :
    Gives (joined ids) d (Grammar.joined parts) := by
  have chained {ids : List GrammarId} {parts : List Grammar} (here : d.HoldsAll ids parts) :
      Gives (chain ids) d (Grammar.sequence parts) := Yields.of_ok (sequences_chain here)
  cases here with
  | nil => exact chained .nil
  | cons first rest =>
    cases rest with
    | nil => exact gives_pure rfl first
    | cons second rest => exact chained (.cons first (.cons second rest))

theorem gives_withEscape (here : d.Holds id g) (nonempty : 0 < g.size) :
    Gives (withEscape id) d (.ok g.escaped) := by
  obtain ⟨r, rule, started⟩ := startRule_eq (d := d) id nonempty
  refine gives_grammar_bind here (yields_reads_bind started ?_)
  by_cases ends : r.hasEnd = true
  · rw [if_pos ends, Grammar.escaped_eq_self ⟨r, rule, ends⟩]
    exact gives_pure rfl here
  · have closed : ¬ g.EndsAt 0 := by
      rwa [Grammar.endsAt_iff_of_rule? rule]
    rw [if_neg ends, Grammar.escaped_eq_withEscape closed]
    exact gives_insert g.withEscape d

theorem gives_looped (here : d.Holds id g) : Gives (looped id) d (.ok g.looped) :=
  gives_grammar_bind here (gives_insert g.looped d)

theorem gives_checkCopies_bind {count : Nat} {next : Unit → Drafting GrammarId}
    {built : Except Fault Grammar} (rest : Gives (next ()) d built) :
    Gives (checkCopies count >>= next) d
      (if copyLimit < count then .error (.outOfBounds count copyLimit) else built) := by
  unfold checkCopies
  split
  · exact gives_throw
  · exact rest

theorem gives_particle (minOccurs : Nat) (maxOccurs : MaxOccurs) (here : d.Holds term t)
    (nonempty : 0 < t.size) :
    Gives (particle minOccurs maxOccurs term) d (Grammar.repeated minOccurs maxOccurs t) := by
  refine gives_grammar_bind here ?_
  have copies (d' : Draft) (stays : d.Stays d') (n : Nat) :
      d'.HoldsAll (List.replicate n term) (List.replicate n t) :=
    holdsAll_replicate (stays term t here) n
  cases maxOccurs with
  | bounded count =>
    rw [Grammar.repeated]
    dsimp only
    split
    · exact gives_throw
    split
    · exact gives_insert .endOnly d
    split
    · exact gives_pure rfl here
    refine gives_checkCopies_bind ?_
    split
    · refine (gives_withEscape here nonempty).bind fun optional d₁ stays there => gives_joined ?_
      exact List.rel_append (copies d₁ stays minOccurs) (holdsAll_replicate there _)
    · have none : count - minOccurs = 0 := by omega
      rw [none, List.replicate_zero, List.append_nil]
      exact gives_joined (copies d (.refl d) minOccurs)
  | unbounded =>
    rw [Grammar.repeated]
    dsimp only
    refine gives_checkCopies_bind ?_
    refine (gives_withEscape here nonempty).bind fun optional d₁ stays there => ?_
    refine (gives_looped there).bind fun loop d₂ later around => gives_joined ?_
    exact List.rel_append (copies d₂ (stays.trans later) minOccurs) (.cons around .nil)

/-- A particle stands for words of its term, as many as there must be, and then for words that are
also read if a run may stop where the term starts. Unless a run can come back there, or if it may stop
there anyway, these are just as many words of the term as the bounds allow. -/
theorem language_of_particle {minOccurs : Nat} {maxOccurs : MaxOccurs} (here : d.Holds term t)
    (wf : t.WellFormed) (run : particle minOccurs maxOccurs term d = .ok id d') :
    ∃ g, d'.Holds id g ∧
      (∀ count, maxOccurs = .bounded count → minOccurs ≤ count ∧
        g.language = t.language ^ minOccurs * t.openLanguage ^ (count - minOccurs)) ∧
      (maxOccurs = .unbounded → g.language = t.language ^ minOccurs * t.openLanguage∗) ∧
      (maxOccurs = .bounded 0 → g.language = 1) ∧
      ((∀ i, ¬ t.Leads i 0) ∨ t.EndsAt 0 →
        g.language = repeated minOccurs maxOccurs t.language) := by
  obtain ⟨_, g, built, there⟩ := (gives_particle minOccurs maxOccurs here wf.nonempty).ok_of_eq run
  refine ⟨g, there, ?_, ?_, ?_, Grammar.language_repeated_eq wf built⟩
  · rintro count rfl
    exact Grammar.language_repeated_bounded wf built
  · rintro rfl
    exact Grammar.language_repeated_unbounded wf built
  · rintro rfl
    obtain ⟨le, language⟩ := Grammar.language_repeated_bounded wf built
    simpa [Nat.le_zero.1 le] using language

/-- The text before the element leads back to where a copy starts. -/
theorem language_of_particle_texted : ∃ id d' g, particle 1 .unbounded 1 texted = .ok id d' ∧
    d'.Holds id g ∧ element.withText.Leads 0 0 ∧
    g.language = element.withText.language * element.withText.openLanguage∗ := by
  obtain ⟨id, d', run⟩ := @exists_of_isOk _ (particle 1 .unbounded 1 texted) (by decide +kernel)
  obtain ⟨g, there, _, loop, _⟩ := language_of_particle holds_texted.2 wellFormed_texted.2 run
  have back : element.withText.Leads 0 0 :=
    ⟨⟨0, [⟨.startElement ⟨0, 0⟩, some 1⟩, ⟨.charactersUntyped, some 0⟩]⟩,
      ⟨.charactersUntyped, some 0⟩, by decide +kernel, by simp, rfl⟩
  exact ⟨id, d', g, run, there, back, by simpa using loop rfl⟩

end Draft

end ExiSchema
