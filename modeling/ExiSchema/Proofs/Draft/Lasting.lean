import ExiSchema.Draft.Session
import ExiSchema.Proofs.Draft.Reaching

/-!
What lasts of a draft. Operations only add to the grammars, the references and the tables, also those
that fail on the way; so a number or a row that was given out once means the same from then on.
-/

set_option autoImplicit false

namespace ExiSchema

namespace Store

/-- Later grammars and references stand behind those that were there. -/
theorem Grows.prefixes {s t : Store} (grows : s.Grows t) :
    s.grammars.toList <+: t.grammars.toList ∧ s.references.toList <+: t.references.toList := by
  refine grows.invariant (P := fun t => s.grammars.toList <+: t.grammars.toList ∧
    s.references.toList <+: t.references.toList) ?_ ⟨List.prefix_refl _, List.prefix_refl _⟩
  rintro t u step ⟨grammars, references⟩
  cases step with
  | tables _ => exact ⟨grammars, references⟩
  | @insert g _ _ =>
    rw [inserted, Array.toList_push, Array.toList_appendList]
    exact ⟨grammars.trans (List.prefix_append _ _), references.trans (List.prefix_append _ _)⟩

end Store

namespace Draft

/-- A later draft has all that an earlier one had, unchanged and at its place: the grammars and the
references come first, and every row of the tables has its number, its text and what stands below
it. -/
structure Persists (d d' : Draft) : Prop where
  grammars : d.grammars.toList <+: d'.grammars.toList
  references : d.references.toList <+: d'.references.toList
  uris : d.uris.Extends d'.uris

variable {d d' e : Draft}

theorem Persists.refl (d : Draft) : d.Persists d :=
  ⟨List.prefix_refl _, List.prefix_refl _, .refl _⟩

theorem Persists.trans (first : d.Persists d') (second : d'.Persists e) : d.Persists e :=
  ⟨first.grammars.trans second.grammars, first.references.trans second.references,
    first.uris.trans second.uris⟩

theorem persists_of_walked (walked : d.Walked d') : d.Persists d' := by
  obtain ⟨grammars, references⟩ := walked.grows.prefixes
  exact ⟨grammars, references, walked.grows.uris.extends⟩

/-- Whatever operations follow, with any arguments and whether or not they succeed, all that is there
stays as it is. -/
theorem Reachable.persists {d : Draft} (reachable : d.Reachable) (ops : List Operation) :
    d.Persists (Operation.afterAll ops d) := by
  induction ops generalizing d with
  | nil => exact .refl d
  | cons op ops ih =>
    have step : d.Persists (op.after d) := persists_of_walked (op.walked reachable.sound)
    exact step.trans (ih (reachable.after op))

section

/-- A type with an element, an attribute wildcard and then a part that is not supported. -/
def halfway : TypeDef :=
  .complex none [⟨⟨"urn:b", "y"⟩, true, "int"⟩] none (.elementOnly (.once (.group .sequence
    [.once (.element ⟨⟨"urn:a", "z"⟩, [], none⟩),
      .once (.element ⟨⟨"", "l"⟩, [], some (.simple none (.list none) "string")⟩)])))

/-- Operations each of which does something and then fails: for a name that cannot be entered, for a
part that is not supported, and for a number of nothing. -/
def breakingOff : List Operation :=
  [.attributeUse true ⟨"urn:c", "é"⟩ "string", .typeGrammars halfway,
    .complexContent [0, 99] (some (.among ["urn:d"])) 0]

/-- A draft with an element and a type. -/
def begun : Draft :=
  (Operation.typeGrammars (.simple (some ⟨"", "t"⟩) .atomic "int")).after
    ((Operation.elementTerm ⟨"urn:a", "x"⟩).after (start {}))

theorem begun_persists : begun.Reachable ∧ begun.grammars.size = 3 ∧ begun.references.size = 1 ∧
    begun.uris.texts.length = 5 ∧ (Operation.afterAll breakingOff begun).grammars.size = 9 ∧
    (Operation.afterAll breakingOff begun).references.size = 5 ∧
    (Operation.afterAll breakingOff begun).uris.texts.length = 8 ∧
    begun.Persists (Operation.afterAll breakingOff begun) := by
  have reachable : begun.Reachable := .after (.after (.start {}) _) _
  exact ⟨reachable, by decide +kernel, by decide +kernel, by decide +kernel, by decide +kernel,
    by decide +kernel, by decide +kernel, reachable.persists breakingOff⟩

end

end Draft

end ExiSchema
