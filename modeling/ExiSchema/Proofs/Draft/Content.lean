import ExiSchema.Proofs.Draft.Reaching

/-!
What the grammar of a particle accepts when the walk has placed it. Of a repetition that may be left
out, the last copy may break off where a run has come back to its start, because the freedom to end
there is given to the start rule itself and not to a start of its own.
-/

set_option autoImplicit false

namespace ExiSchema

theorem Particle.mem_inside (p : Particle) : p ∈ p.inside := by
  cases p
  exact List.mem_cons_self

namespace Draft

/-- A particle that is placed leaves one grammar on the stack, with exactly the language of
`Particle.accepted`. No word of the particle is missing, and none is too many, in the particle and
in all particles of its content, if and only if each repetition stops at whole copies only. -/
theorem language_of_placeParticle {p : Particle} {d d' : Draft} (sound : d.store.Sound)
    (placed : placeParticle p d = .ok () d') :
    ∃ id g, d'.stack = id :: d.stack ∧ d'.grammars[id]? = some g ∧
      g.language = p.accepted d'.uris ∧ p.language d'.uris ≤ g.language ∧
      ((g.language = p.language d'.uris ∧
          ∀ q ∈ p.inside, q.accepted d'.uris = q.language d'.uris) ↔
        ∀ q ∈ p.inside, q.StopsWhole d'.uris) := by
  obtain ⟨_, id, stack, ⟨g, here, built⟩, entered⟩ := (walks_placeParticle p d sound).ok_of_eq placed
  have fits := d'.uris.fits_naming
  have behaves := p.behaves fits entered (built _ fits)
  refine ⟨id, g, stack, here, behaves.language, ?_, ?_⟩
  · rw [behaves.language]
    exact p.language_le_accepted
  · rw [← p.accepted_eq_language_iff, behaves.language]
    exact ⟨And.right, fun all => ⟨all p p.mem_inside, all⟩⟩

section

def elementA : ElementDecl := ⟨⟨"", "a"⟩, [], none⟩

def elementX : ElementDecl := ⟨⟨"", "x"⟩, [], none⟩

/-- One element, as often as wanted, and then another one; all of it may be left out. -/
def optionalSequence : Particle :=
  .optional (.group .sequence [.zeroOrMore (.element elementA), .once (.element elementX)])

def isOk {α : Type} : EStateM.Result Fault Draft α → Bool
  | .ok _ _ => true
  | .error _ _ => false

theorem exists_of_isOk {α : Type} {result : EStateM.Result Fault Draft α}
    (ok : isOk result = true) : ∃ a d, result = .ok a d := by
  cases result with
  | ok a d => exact ⟨a, d, rfl⟩
  | error _ _ => cases ok

theorem exists_of_yields_isOk {α : Type} {action : Drafting α} {d : Draft}
    {ok : α → Draft → Prop} {fails : Fault → Draft → Prop} (spec : Yields action d ok fails)
    (good : isOk (action d) = true) : ∃ a d', action d = .ok a d' ∧ ok a d' := by
  obtain ⟨a, d', run⟩ := exists_of_isOk good
  exact ⟨a, d', run, spec.ok_of_eq run⟩

theorem placed_optionalSequence :
    ∃ d', placeParticle optionalSequence (start {}) = .ok () d' := by
  have ok : isOk (placeParticle optionalSequence (start {})) = true := by decide +kernel
  obtain ⟨_, d', placed⟩ := exists_of_isOk ok
  exact ⟨d', placed⟩

theorem language_of_placed_optionalSequence : ∃ d' id g,
    placeParticle optionalSequence (start {}) = .ok () d' ∧ d'.stack = [id] ∧
      d'.grammars[id]? = some g ∧ g.language = optionalSequence.accepted d'.uris := by
  obtain ⟨d', placed⟩ := placed_optionalSequence
  obtain ⟨id, g, stack, here, language, _⟩ := language_of_placeParticle (sound_start {}) placed
  exact ⟨d', id, g, placed, stack, here, language⟩

theorem mem_repeated_one {l : Language Event} {w : List Event}
    (word : w ∈ repeated 1 (.bounded 1) l) : w ∈ l := by
  obtain ⟨k, least, most, word⟩ := word
  obtain rfl : k = 1 := le_antisymm most least
  rwa [pow_one] at word

/-- Every word of the particle but the empty one closes with the second element. -/
theorem closes_of_mem_optionalSequence {t : UriTable} {w : List Event}
    (word : w ∈ optionalSequence.language t) :
    w = [] ∨ ∃ u ref, t.find? elementX.name = some ref ∧ w = u ++ [.startElement ref] := by
  obtain ⟨k, _, most, word⟩ := word
  rcases Nat.le_one_iff_eq_zero_or_eq_one.1 most with rfl | rfl
  · rw [pow_zero] at word
    exact .inl word
  · rw [pow_one] at word
    obtain ⟨u, _, v, rest, rfl⟩ := Language.mem_mul.1 word
    obtain ⟨x, last, _, rfl, rfl⟩ := Language.mem_mul.1 rest
    obtain ⟨ref, found, rfl⟩ := mem_repeated_one last
    exact .inr ⟨u, ref, found, by rw [List.append_nil]⟩

/-- The word of the first element leads back to where the grammar of the sequence starts. -/
theorem mem_accepted_optionalSequence {t : UriTable} {ref : NameRef}
    (found : t.find? elementA.name = some ref) :
    [.startElement ref] ∈ optionalSequence.accepted t := by
  have word : [Event.startElement ref] ∈ (Term.element elementA).accepted t := ⟨ref, found, rfl⟩
  have back : [Event.startElement ref] ∈ (Particle.zeroOrMore (.element elementA)).back t :=
    ⟨1, Nat.zero_le 1, .inl ⟨trivial, by rwa [pow_one]⟩⟩
  refine ⟨0, le_rfl, .inr ⟨Nat.le_refl 1, ?_⟩⟩
  rwa [pow_zero, one_mul]

/-- The word of the first element alone is accepted, and the particle does not stand for it. -/
theorem optionalSequence_breaks_off : ∃ d' id g ref,
    placeParticle optionalSequence (start {}) = .ok () d' ∧ d'.stack = [id] ∧
      d'.grammars[id]? = some g ∧ d'.uris.find? elementA.name = some ref ∧
      [.startElement ref] ∈ g.language ∧
      [.startElement ref] ∉ optionalSequence.language d'.uris := by
  obtain ⟨d', placed⟩ := placed_optionalSequence
  obtain ⟨_, id, stack, ⟨g, here, built⟩, entered⟩ :=
    (walks_placeParticle optionalSequence (start {}) (sound_start {})).ok_of_eq placed
  have fits := d'.uris.fits_naming
  have language := (optionalSequence.behaves fits entered (built _ fits)).language
  obtain ⟨⟨ref, found⟩, _⟩ := entered
  refine ⟨d', id, g, ref, placed, stack, here, found, ?_, ?_⟩
  · rw [language]
    exact mem_accepted_optionalSequence found
  · intro word
    rcases closes_of_mem_optionalSequence word with empty | ⟨u, ref', found', closes⟩
    · cases empty
    · obtain ⟨_, same⟩ := List.append_inj' ((List.nil_append _).trans closes) rfl
      cases same
      have name := (UriTable.resolve?_of_find? found).symm.trans (UriTable.resolve?_of_find? found')
      exact absurd (Option.some.inj name) (by decide)

end

end Draft

end ExiSchema
