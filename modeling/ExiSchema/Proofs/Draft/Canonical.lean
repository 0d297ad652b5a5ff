import ExiSchema.Proofs.Draft.Reaching
import ExiSchema.Proofs.Sorted.Moving
import ExiSchema.Proofs.Sorted.Order

/-!
Moving a draft to canonical rows. The references of a draft are exactly those of its grammars, and
every event is over rows that the tables have; so all of them are moved, each once, and mean what
they meant before.
-/

set_option autoImplicit false

namespace ExiSchema

theorem Event.named?_of_plain {t : UriTable} {e : Event} (plain : e.uri? = none) :
    (e.named? t).isSome := by
  match e, plain with
  | .endElement, _ | .characters _, _ | .charactersUntyped, _ | .startElementAny, _
  | .attributeAny, _ | .epsilon, _ => rfl

namespace Grammar

def Every (P : Event → Prop) (g : Grammar) : Prop := ∀ r ∈ g.rules, ∀ p ∈ r.productions, P p.event

variable {t : UriTable} {known : Grammar → Prop} {P : Event → Prop} {g : Grammar}
  {parts : List Grammar}

theorem Every.parts_alike (every : ∀ p ∈ parts, p.Every P) :
    List.Forall₂ (Alike fun e e' => e = e' ∧ P e) parts parts :=
  List.forall₂_same.2 fun p mem => alike_self_iff.2 (every p mem)

theorem Every.of_agree {x : Except Fault Grammar}
    (agree : Agree (Alike fun e e' => e = e' ∧ P e) x x) (run : x = .ok g) : g.Every P := by
  rw [run] at agree
  cases agree with
  | ok alike => exact alike_self_iff.1 alike

/-- Grammars that are built have no events but those that they are built from, and such as name
nothing. -/
theorem Derives.every (plain : ∀ e : Event, e.uri? = none → P e) (stands : ∀ e, e.Stands t → P e)
    (knows : ∀ g, known g → g.Every P) (derived : Derives t known g) : g.Every P := by
  have resp : Event.Respected fun e e' => e = e' ∧ P e :=
    ⟨fun e h => ⟨rfl, plain e h⟩, fun e e' same => by rw [same.1]⟩
  have events {es : List Event} (stand : ∀ e ∈ es, e.Stands t) :
      List.Forall₂ (fun e e' => e = e' ∧ P e) es es :=
    List.forall₂_same.2 fun e mem => ⟨rfl, stands e (stand e mem)⟩
  induction derived with
  | known here => exact knows _ here
  | endOnly => exact alike_self_iff.1 (alike_endOnly resp)
  | anything => exact alike_self_iff.1 (alike_anything resp)
  | anyAttributes => exact alike_self_iff.1 (alike_anyAttributes resp)
  | oneOf _ stand => exact alike_self_iff.1 (alike_oneOf resp (events stand))
  | sequence _ run ih => exact .of_agree (agree_sequence resp (Every.parts_alike ih)) run
  | choice _ run ih => exact .of_agree (agree_choice resp (Every.parts_alike ih)) run
  | rounds _ run ih => exact .of_agree (agree_rounds resp (Every.parts_alike ih)) run
  | withEscape _ ih => exact alike_self_iff.1 ((alike_self_iff.2 ih).withEscape resp)
  | looped _ _ ih => exact alike_self_iff.1 ((alike_self_iff.2 ih).looped resp)
  | withStartEvents _ stand ih =>
    exact alike_self_iff.1 ((alike_self_iff.2 ih).withStartEvents (events stand))
  | withText _ ih => exact alike_self_iff.1 ((alike_self_iff.2 ih).withText resp)
  | renumber _ ih => exact alike_self_iff.1 (alike_self_iff.2 ih).renumber

end Grammar

namespace Store

/-- The references are those of the grammars, and the tables have all rows that the grammars need. -/
structure Tracked (s : Store) : Prop where
  references : s.references.toList = Grammar.allReferences s.grammars.toList
  named : ∀ g ∈ s.grammars, g.Every fun e => (e.named? s.uris).isSome

theorem tracked_initial : initial.Tracked :=
  ⟨rfl, fun g mem => absurd mem (Array.not_mem_empty g)⟩

theorem Step.tracked {s t : Store} (step : Step s t) (tracked : s.Tracked) : t.Tracked := by
  cases step with
  | tables change =>
    refine ⟨tracked.references, fun g mem r rule p inner => ?_⟩
    obtain ⟨n, named⟩ := Option.isSome_iff_exists.1 (tracked.named g mem r rule p inner)
    rw [change.grows.extends.named? named]
    rfl
  | @insert g derived _ =>
    refine ⟨?_, fun g' mem => ?_⟩
    · simp only [inserted, Array.toList_appendList, Array.toList_push,
        Grammar.allReferences_append, tracked.references, Array.length_toList]
    · rcases Array.mem_push.1 mem with old | rfl
      · exact tracked.named g' old
      · exact derived.every (fun _ => Event.named?_of_plain) (fun _ stands => stands.rows)
          tracked.named

theorem Grows.tracked {s t : Store} (grows : s.Grows t) (tracked : s.Tracked) : t.Tracked :=
  grows.invariant (fun _ _ step => step.tracked) tracked

end Store

/-- The event is `e` over the rows to which those of `e` went, and it names in the canonical tables
what `e` names. -/
structure Event.Renamed (t : UriTable) (e e' : Event) : Prop where
  moved : t.sorted.mapping.moved e = .ok e'
  named : ∃ n, e.named? t = some n ∧ e'.named? t.sorted.uris = some n

theorem Event.renamed_of_named {t : UriTable} {e : Event} {n : NamedEvent}
    (named : e.named? t = some n) : ∃ e', Renamed t e e' := by
  match e, named with
  | .startElement ref, named | .attribute ref _, named =>
    obtain ⟨q, here, rfl⟩ := Option.map_eq_some_iff.1 named
    obtain ⟨ref', goes, there⟩ := UriTable.resolve?_sorted here
    exact ⟨_, by rw [Relocation.moved, goes]; rfl, _, by rw [Event.named?, here]; rfl,
      by rw [Event.named?, there]; rfl⟩
  | .startElementNs uri, named | .attributeNs uri, named =>
    obtain ⟨label, here, rfl⟩ := Option.map_eq_some_iff.1 named
    obtain ⟨uri', goes, there⟩ := UriTable.labelAt?_sorted here
    exact ⟨_, by rw [Relocation.moved, goes]; rfl, _, by rw [Event.named?, here]; rfl,
      by rw [Event.named?, there]; rfl⟩
  | .endElement, _ | .characters _, _ | .charactersUntyped, _ | .startElementAny, _
  | .attributeAny, _ | .epsilon, _ => exact ⟨_, rfl, _, rfl, rfl⟩

namespace Store

open Grammar

theorem Tracked.renamed {s : Store} (tracked : s.Tracked) {a : Address} {p : Production}
    (here : productionAt? s.grammars a = some p) : ∃ e, Event.Renamed s.uris p.event e := by
  obtain ⟨g, known, inner⟩ := Option.bind_eq_some_iff.1 here
  obtain ⟨r, rule, place⟩ := Option.bind_eq_some_iff.1 inner
  obtain ⟨n, named⟩ := Option.isSome_iff_exists.1 (tracked.named g (Array.mem_of_getElem? known) r
    (Array.mem_of_getElem? rule) p (List.mem_of_getElem? place))
  exact Event.renamed_of_named named

/-- All references can be taken, and then every event of every grammar is moved. -/
theorem Tracked.moveAll {s : Store} (tracked : s.Tracked) :
    ∃ grammars, s.uris.sorted.mapping.moveAll s.grammars s.references.toList = .ok grammars ∧
      List.Forall₂ (Alike (Event.Renamed s.uris)) s.grammars.toList grammars.toList := by
  rw [tracked.references]
  have fit : ∀ ref ∈ allReferences s.grammars.toList,
      ∃ p, productionAt? s.grammars ref.address = some p ∧ p.reference? ref.address = some ref ∧
        ∃ e, s.uris.sorted.mapping.moved p.event = .ok e := by
    intro ref mem
    obtain ⟨p, here, refers⟩ := mem_allReferences_iff.1 mem
    obtain ⟨e, renamed⟩ := tracked.renamed here
    exact ⟨p, here, refers, e, renamed.moved⟩
  obtain ⟨grammars, run, outlines, moved, kept⟩ :=
    Relocation.moveAll_places ((pairwise_allReferences _).imp Address.Before.ne) fit
  refine ⟨grammars, run, alike_of_outline outlines fun a p p' here here' => ?_⟩
  obtain ⟨e, renamed⟩ := tracked.renamed here
  cases refers : p.reference? a with
  | some ref =>
    -- The production is named by its reference, which has the address `a`.
    have address : ref.address = a := by
      obtain ⟨_, _, rfl⟩ := Option.map_eq_some_iff.1 refers
      rfl
    subst address
    obtain ⟨e', goes, there⟩ := moved ref (mem_allReferences_iff.2 ⟨p, here, refers⟩) p here
    cases there.symm.trans here'
    cases goes.symm.trans renamed.moved
    exact renamed
  | none =>
    have elsewhere : ∀ ref ∈ allReferences s.grammars.toList, ref.address ≠ a := by
      rintro ref mem rfl
      obtain ⟨q, there, refers'⟩ := mem_allReferences_iff.1 mem
      cases here.symm.trans there
      cases refers.symm.trans refers'
    cases ((kept a elsewhere).trans here).symm.trans here'
    cases (Relocation.moved_of_plain _ (Option.map_eq_none_iff.1 refers)).symm.trans renamed.moved
    exact renamed

end Store

namespace Draft

/-- Of any draft that can be reached, the references can all be taken. Every grammar keeps its rules
and productions, and each production goes over to the canonical rows of the names that it had. -/
theorem moveAll_renames {d : Draft} (reachable : d.Reachable) :
    ∃ grammars, d.uris.sorted.mapping.moveAll d.grammars d.references.toList = .ok grammars ∧
      List.Forall₂ (Grammar.Alike (Event.Renamed d.uris)) d.grammars.toList grammars.toList :=
  (reachable.grows.1.tracked Store.tracked_initial).moveAll

/-- A draft with two names that do not stand in canonical order. -/
def unsorted : Draft :=
  (Operation.elementTerm ⟨"urn:b", "x"⟩).after
    ((Operation.wildcardTerm (.among ["urn:z"])).after (start {}))

theorem moveAll_renames_unsorted : unsorted.Reachable ∧
    unsorted.references.toList = [⟨⟨0, 0, 0⟩, 4, none⟩, ⟨⟨1, 0, 0⟩, 5, some 0⟩] ∧
    ∃ grammars, unsorted.uris.sorted.mapping.moveAll unsorted.grammars unsorted.references.toList =
        .ok grammars ∧
      List.Forall₂ (Grammar.Alike (Event.Renamed unsorted.uris)) unsorted.grammars.toList
        grammars.toList := by
  have reachable : unsorted.Reachable := .after (.after (.start {}) _) _
  exact ⟨reachable, by decide +kernel, moveAll_renames reachable⟩

end Draft

end ExiSchema
