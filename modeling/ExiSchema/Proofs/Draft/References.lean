import ExiSchema.Proofs.Draft.Canonical

/-!
The references of a draft. There is one for each production that names something, in the order of
the productions, and every row that one refers to is in the tables.
-/

set_option autoImplicit false

namespace ExiSchema

/-- The reference repeats the rows of the production that it names. -/
structure RowReference.Repeats (ref : RowReference) (p : Production) : Prop where
  uri : p.event.uri? = some ref.uri
  name : ref.name = p.event.name?.map NameRef.name

theorem Production.reference?_eq_some_iff {p : Production} {ref : RowReference} :
    p.reference? ref.address = some ref ↔ ref.Repeats p := by
  obtain ⟨address, uri, name⟩ := ref
  simp only [reference?, Option.map_eq_some_iff, RowReference.mk.injEq, true_and]
  constructor
  · rintro ⟨_, refers, rfl, same⟩
    exact ⟨refers, same.symm⟩
  · rintro ⟨refers, same⟩
    exact ⟨uri, refers, rfl, same.symm⟩

/-- Only a production for any name of a namespace goes without a local name. -/
theorem RowReference.Repeats.name_eq_none_iff {ref : RowReference} {p : Production}
    (repeats : ref.Repeats p) :
    ref.name = none ↔ p.event = .startElementNs ref.uri ∨ p.event = .attributeNs ref.uri := by
  obtain ⟨uri, name⟩ := repeats
  rw [name]
  cases event : p.event <;> rw [event] at uri <;> simp_all [Event.uri?, Event.name?]

/-- The tables have the row of the URI and, below it, that of the local name if there is one. -/
structure UriTable.Covers (t : UriTable) (ref : RowReference) : Prop where
  uri : (t.labelAt? ref.uri).isSome
  name : ∀ name, ref.name = some name →
    ∃ names, t.names? ref.uri = some names ∧ (names.labelAt? name).isSome

theorem UriTable.covers_of_named {t : UriTable} {ref : RowReference} {p : Production}
    (repeats : ref.Repeats p) (named : (p.event.named? t).isSome) : t.Covers ref := by
  obtain ⟨address, uri, name⟩ := ref
  obtain ⟨refers, same⟩ := repeats
  dsimp only at refers same
  subst same
  obtain ⟨n, named⟩ := Option.isSome_iff_exists.1 named
  have named_name {old : NameRef} {q : QName} (here : t.resolve? old = some q) :
      t.Covers ⟨address, old.uri, some old.name⟩ := by
    obtain ⟨label, label', there, below, _⟩ := resolve?_eq_some_iff.1 here
    obtain ⟨names, opened, inner⟩ := Option.bind_eq_some_iff.1 below
    refine ⟨by rw [there]; rfl, ?_⟩
    rintro _ ⟨⟩
    exact ⟨names, opened, by rw [inner]; rfl⟩
  match h : p.event, named, refers with
  | .startElement old, named, refers | .attribute old _, named, refers =>
    cases refers
    obtain ⟨q, here, _⟩ := Option.map_eq_some_iff.1 named
    exact named_name here
  | .startElementNs row, named, refers | .attributeNs row, named, refers =>
    cases refers
    obtain ⟨label, here, _⟩ := Option.map_eq_some_iff.1 named
    exact ⟨by rw [here]; rfl, by rintro _ ⟨⟩⟩

namespace Draft

/-- After any operations, with any arguments and whether or not they succeeded, the references rise
through the grammars, their rules and productions; there is one for each production that names
something, with the rows of that production; and the tables have these rows. -/
theorem Reachable.references_exact {d : Draft} (reachable : d.Reachable) :
    (d.references.toList.Pairwise fun a b => a.address.Before b.address) ∧
      (∀ ref, ref ∈ d.references.toList ↔
        ∃ p, Grammar.productionAt? d.grammars ref.address = some p ∧ ref.Repeats p ∧
          (ref.name = none ↔ p.event = .startElementNs ref.uri ∨ p.event = .attributeNs ref.uri)) ∧
      ∀ ref ∈ d.references.toList, d.uris.Covers ref := by
  have tracked : d.store.Tracked := reachable.grows.1.tracked Store.tracked_initial
  have listed : d.references.toList = Grammar.allReferences d.grammars.toList := tracked.references
  rw [listed]
  refine ⟨Grammar.pairwise_allReferences _, fun ref => ?_, fun ref mem => ?_⟩
  · rw [Grammar.mem_allReferences_iff]
    simp only [Production.reference?_eq_some_iff]
    exact exists_congr fun p => and_congr_right fun _ =>
      ⟨fun repeats => ⟨repeats, repeats.name_eq_none_iff⟩, And.left⟩
  · obtain ⟨p, here, refers⟩ := Grammar.mem_allReferences_iff.1 mem
    obtain ⟨_, _, n, named, _⟩ := tracked.renamed here
    exact UriTable.covers_of_named (Production.reference?_eq_some_iff.1 refers)
      (Option.isSome_of_eq_some named)

/-- A draft with a choice of a wildcard and an element, after an attribute whose namespace was entered
and whose local name was refused. -/
def choosing : Draft :=
  (Operation.choice [1, 0]).after
    ((Operation.attributeUse true ⟨"urn:b", "é"⟩ "string").after
      ((Operation.wildcardTerm (.among ["urn:z", ""])).after
        ((Operation.elementTerm ⟨"urn:a", "x"⟩).after (start {}))))

theorem choosing_references_exact : choosing.Reachable ∧
    choosing.references.toList = [⟨⟨0, 0, 0⟩, 4, some 0⟩, ⟨⟨1, 0, 0⟩, 5, none⟩,
      ⟨⟨1, 0, 1⟩, 0, none⟩, ⟨⟨2, 1, 0⟩, 5, none⟩, ⟨⟨2, 1, 1⟩, 0, none⟩, ⟨⟨2, 3, 0⟩, 4, some 0⟩] ∧
    (choosing.references.toList.Pairwise fun a b => a.address.Before b.address) ∧
    (∀ ref, ref ∈ choosing.references.toList ↔
      ∃ p, Grammar.productionAt? choosing.grammars ref.address = some p ∧ ref.Repeats p ∧
        (ref.name = none ↔ p.event = .startElementNs ref.uri ∨ p.event = .attributeNs ref.uri)) ∧
    ∀ ref ∈ choosing.references.toList, choosing.uris.Covers ref := by
  have reachable : choosing.Reachable := .after (.after (.after (.after (.start {}) _) _) _) _
  exact ⟨reachable, by decide +kernel, reachable.references_exact⟩

end Draft

end ExiSchema
