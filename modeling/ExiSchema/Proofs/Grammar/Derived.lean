import ExiSchema.Grammar.Named
import ExiSchema.Proofs.Grammar.Repetition
import ExiSchema.Proofs.Table.Growth

/-!
Every way in which a compilation comes to a grammar. What all grammars of a compilation have in
common is shown by one induction over these.
-/

set_option autoImplicit false

namespace ExiSchema

/-- An event that reads something, over rows that the tables have. -/
structure Event.Stands (t : UriTable) (e : Event) : Prop where
  visible : e ≠ .epsilon
  goesOn : e ≠ .endElement
  rows : (e.named? t).isSome

theorem UriTable.Extends.named? {t u : UriTable} (ext : t.Extends u) {e : Event} {n : NamedEvent}
    (named : e.named? t = some n) : e.named? u = some n := by
  match e, named with
  | .startElement ref, named | .attribute ref _, named =>
    obtain ⟨q, here, rfl⟩ := Option.map_eq_some_iff.1 named
    exact Option.map_eq_some_iff.2 ⟨q, ext.resolve? here, rfl⟩
  | .startElementNs uri, named | .attributeNs uri, named =>
    obtain ⟨label, here, rfl⟩ := Option.map_eq_some_iff.1 named
    exact Option.map_eq_some_iff.2 ⟨label, ext.labelAt? here, rfl⟩
  | .endElement, named | .characters _, named | .charactersUntyped, named
  | .startElementAny, named | .attributeAny, named | .epsilon, named => exact named

theorem Event.Stands.mono {t u : UriTable} {e : Event} (stands : e.Stands t) (ext : t.Extends u) :
    e.Stands u := by
  obtain ⟨n, named⟩ := Option.isSome_iff_exists.1 stands.rows
  exact ⟨stands.visible, stands.goesOn, by rw [ext.named? named]; rfl⟩

namespace Grammar

variable {g : Grammar}

theorem wellFormed_anything : anything.WellFormed := by
  refine wellFormed_iff.2 ⟨Nat.two_pos, ?_⟩
  refine ((rulesStand_empty 2).push (r := ⟨0, _⟩) ⟨rfl, ?_⟩).push (r := ⟨1, _⟩) ⟨rfl, ?_⟩ <;> simp

theorem wellFormed_anyAttributes : anyAttributes.WellFormed := by
  refine wellFormed_iff.2 ⟨Nat.one_pos, ?_⟩
  refine (rulesStand_empty 1).push (r := ⟨0, _⟩) ⟨rfl, ?_⟩
  simp

theorem WellFormed.withStartEvents {events : List Event} (wf : g.WellFormed)
    (goOn : .endElement ∉ events) : (g.withStartEvents events).WellFormed := by
  refine wf.modifyStart fun r stands => ⟨stands.numbered, fun p mem => ?_⟩
  rcases List.mem_append.1 mem with old | new
  · exact stands.fits p old
  · obtain ⟨e, inner, rfl⟩ := List.mem_map.1 new
    exact Production.fits_some.2 ⟨wf.nonempty, fun h => goOn (h ▸ inner)⟩

theorem WellFormed.withText (wf : g.WellFormed) : g.withText.WellFormed := by
  obtain ⟨nonempty, rules⟩ := wellFormed_iff.1 wf
  rw [wellFormed_iff, size_withText]
  refine ⟨nonempty, fun i r rule => ?_⟩
  obtain ⟨s, old, rfl⟩ := Option.map_eq_some_iff.1 ((Array.getElem?_map ..).symm.trans rule)
  have stands := rules i s old
  refine ⟨stands.numbered, fun p mem => ?_⟩
  rcases List.mem_append.1 mem with inner | new
  · exact stands.fits p inner
  · rw [List.mem_singleton.1 new]
    exact Production.fits_some.2 ⟨stands.numbered ▸ lt_size_of_rule? old, by decide⟩

/-- The rules of a well-formed grammar have their numbers already. -/
theorem WellFormed.renumber_eq (wf : g.WellFormed) : g.renumber = g := by
  have rules : g.renumber.rules = g.rules := by
    apply Array.ext
    · simp [renumber]
    · intro i _ lt
      have id : g.rules[i].id = i := wf.numbered i _ (Array.getElem?_eq_getElem lt)
      simp only [renumber, Array.getElem_mapIdx]
      cases here : g.rules[i]
      rw [here] at id
      exact congrArg (Rule.mk · _) id.symm
  cases g
  exact congrArg Grammar.mk rules

/-- The grammars that operations make of known ones, over rows that the tables have. -/
inductive Derives (t : UriTable) (known : Grammar → Prop) : Grammar → Prop where
  | known {g : Grammar} (here : known g) : Derives t known g
  | endOnly : Derives t known endOnly
  | anything : Derives t known anything
  | anyAttributes : Derives t known anyAttributes
  | oneOf {events : List Event} (some : events ≠ []) (stand : ∀ e ∈ events, e.Stands t) :
      Derives t known (oneOf events)
  | sequence {parts : List Grammar} {g : Grammar} (derived : ∀ p ∈ parts, Derives t known p)
      (run : sequence parts = .ok g) : Derives t known g
  | choice {parts : List Grammar} {g : Grammar} (derived : ∀ p ∈ parts, Derives t known p)
      (run : choice parts = .ok g) : Derives t known g
  | rounds {parts : List Grammar} {g : Grammar} (derived : ∀ p ∈ parts, Derives t known p)
      (run : rounds parts = .ok g) : Derives t known g
  | withEscape {g : Grammar} (derived : Derives t known g) : Derives t known g.withEscape
  | looped {g : Grammar} (derived : Derives t known g) (ends : g.EndsAt 0) :
      Derives t known g.looped
  | withStartEvents {g : Grammar} {events : List Event} (derived : Derives t known g)
      (stand : ∀ e ∈ events, e.Stands t) : Derives t known (g.withStartEvents events)
  | withText {g : Grammar} (derived : Derives t known g) : Derives t known g.withText
  | renumber {g : Grammar} (derived : Derives t known g) : Derives t known g.renumber

theorem Derives.single {t : UriTable} {known : Grammar → Prop} {e : Event} (stands : e.Stands t) :
    Derives t known (single e) := by
  refine single_eq_oneOf e ▸ .oneOf (List.cons_ne_nil e []) fun e' mem => ?_
  exact List.mem_singleton.1 mem ▸ stands

theorem Derives.wellFormed {t : UriTable} {known : Grammar → Prop}
    (wf : ∀ g, known g → g.WellFormed) (derived : Derives t known g) : g.WellFormed := by
  induction derived with
  | known here => exact wf _ here
  | endOnly => exact wellFormed_endOnly
  | anything => exact wellFormed_anything
  | anyAttributes => exact wellFormed_anyAttributes
  | oneOf _ stand => exact wellFormed_oneOf fun mem => (stand _ mem).goesOn rfl
  | sequence _ run ih => exact .sequence ih run
  | choice _ run ih => exact .choice ih run
  | rounds _ run ih => exact .rounds ih run
  | withEscape _ ih => exact ih.withEscape
  | looped _ _ ih => exact ih.looped
  | withStartEvents _ stand ih => exact ih.withStartEvents fun mem => (stand _ mem).goesOn rfl
  | withText _ ih => exact ih.withText
  | renumber _ ih => rwa [ih.renumber_eq]

end Grammar

end ExiSchema
