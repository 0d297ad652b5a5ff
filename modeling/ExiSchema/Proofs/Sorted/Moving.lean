import ExiSchema.Sorted.Relocation
import ExiSchema.Proofs.Grammar.Places

/-!
Moving grammars to new rows. The references are taken one after the other, and each of them changes
the production that it names and no other; since no two name the same production, each production
is moved once.
-/

set_option autoImplicit false

namespace ExiSchema

/-- The event over the rows to which its own rows went. -/
def Relocation.moved (m : Relocation) : Event → Except Fault Event
  | .startElement ref => (m.ref ref).map .startElement
  | .startElementNs uri => (m.uri uri).map .startElementNs
  | .attribute ref value => (m.ref ref).map (.attribute · value)
  | .attributeNs uri => (m.uri uri).map .attributeNs
  | e => .ok e

theorem Relocation.moved_of_plain (m : Relocation) {e : Event} (plain : e.uri? = none) :
    m.moved e = .ok e := by
  match e, plain with
  | .endElement, _ | .characters _, _ | .charactersUntyped, _ | .startElementAny, _
  | .attributeAny, _ | .epsilon, _ => rfl

/-- A reference that repeats the rows of an event moves the event. -/
theorem Relocation.event_eq_moved (m : Relocation) {p : Production} {a : Address}
    {ref : RowReference} (refers : p.reference? a = some ref) :
    m.event ref p.event = m.moved p.event := by
  obtain ⟨uri, names, rfl⟩ := Option.map_eq_some_iff.1 refers
  match here : p.event, names with
  | .startElement name, names | .attribute name _, names =>
    cases names
    simp only [event, moved, Event.name?, Option.map_some, if_true]
    cases m.ref name <;> rfl
  | .startElementNs uri, names | .attributeNs uri, names =>
    cases names
    simp only [event, moved, Event.name?, Event.uri?, Option.map_none, if_true]
    cases m.uri uri <;> rfl

namespace Grammar

/-- What is left of a grammar without its events. -/
def outline (g : Grammar) : Array (Nat × List (Option Nat)) :=
  g.rules.map fun r => (r.id, r.productions.map Production.target)

theorem productionAt?_setProduction (grammars : Array Grammar) (a b : Address) (p : Production) :
    productionAt? (setProduction grammars a p) b =
      if a = b then (productionAt? grammars b).map fun _ => p else productionAt? grammars b := by
  unfold productionAt? setProduction
  rw [Array.getElem?_modify]
  by_cases grammar : a.grammar = b.grammar
  · rw [if_pos grammar]
    cases known : grammars[b.grammar]? with
    | none => simp
    | some g =>
      simp only [Option.map_some, Option.bind_some, production?, rule?, Array.getElem?_modify]
      by_cases rule : a.rule = b.rule
      · rw [if_pos rule]
        cases here : g.rules[b.rule]? with
        | none => simp
        | some r =>
          simp only [Option.map_some, Option.bind_some, Rule.setProduction, List.getElem?_set]
          by_cases place : a.production = b.production
          · have same : a = b := by
              cases a
              cases b
              exact Address.mk.injEq .. ▸ ⟨grammar, rule, place⟩
            subst same
            simp only [if_true]
            by_cases lt : a.production < r.productions.length
            · simp [lt]
            · simp [lt]
          · rw [if_neg place, if_neg fun same => place (congrArg Address.production same)]
      · rw [if_neg rule, if_neg fun same => rule (congrArg Address.rule same)]
  · rw [if_neg grammar, if_neg fun same => grammar (congrArg Address.grammar same)]

theorem map_modify_eq {α β : Type} {f : α → α} {s : α → β} {xs : Array α} {i : Nat}
    (same : ∀ x, xs[i]? = some x → s (f x) = s x) : (xs.modify i f).map s = xs.map s := by
  apply Array.ext_getElem?
  intro j
  rw [Array.getElem?_map, Array.getElem?_map, Array.getElem?_modify]
  split
  · next here =>
    subst here
    cases known : xs[i]? with
    | none => rfl
    | some x => exact congrArg some (same x known)
  · rfl

theorem outline_setProduction {grammars : Array Grammar} {a : Address} {p p' : Production}
    (here : productionAt? grammars a = some p) (target : p'.target = p.target) :
    (setProduction grammars a p').map outline = grammars.map outline := by
  refine map_modify_eq fun g known => ?_
  change (g.rules.modify a.rule fun r => r.setProduction a.production p').map _ = g.rules.map _
  refine map_modify_eq fun r rule => ?_
  have place : r.productions[a.production]? = some p := by
    rwa [productionAt?, known, Option.bind_some, production?, rule?, rule, Option.bind_some] at here
  obtain ⟨lt, same⟩ := List.getElem?_eq_some_iff.1 place
  have targets : (r.productions.set a.production p').map Production.target =
      r.productions.map Production.target := by
    rw [List.map_set, target, ← same, ← List.getElem_map Production.target,
      List.set_getElem_self]
    exact (List.length_map _).symm ▸ lt
  exact congrArg (Prod.mk r.id) targets

/-- Grammars are alike if they have the same outline and events that are related in each place. -/
theorem alike_of_outline {R : Event → Event → Prop} {grammars grammars' : Array Grammar}
    (outlines : grammars'.map outline = grammars.map outline)
    (each : ∀ a p p', productionAt? grammars a = some p → productionAt? grammars' a = some p' →
      R p.event p'.event) :
    List.Forall₂ (Alike R) grammars.toList grammars'.toList := by
  have sizes := congrArg Array.size outlines
  rw [Array.size_map, Array.size_map] at sizes
  refine forall₂_iff_getElem?.2 ⟨sizes.symm, fun id g g' known known' => ?_⟩
  rw [Array.getElem?_toList] at known known'
  have outline_eq : g'.outline = g.outline := by
    have entry := congrArg (·[id]?) outlines
    simpa only [Array.getElem?_map, known, known', Option.map_some, Option.some.injEq] using entry
  have ruleCount := congrArg Array.size outline_eq
  unfold outline at ruleCount
  rw [Array.size_map, Array.size_map] at ruleCount
  refine rulesAlike_iff.2 ⟨ruleCount.symm, fun i r r' rule rule' => ?_⟩
  obtain ⟨ids, targets⟩ : r'.id = r.id ∧
      r'.productions.map Production.target = r.productions.map Production.target := by
    have entry := congrArg (·[i]?) outline_eq
    simpa only [outline, Array.getElem?_map, rule, rule', Option.map_some, Option.some.injEq,
      Prod.mk.injEq] using entry
  have length := congrArg List.length targets
  rw [List.length_map, List.length_map] at length
  refine ⟨ids, forall₂_iff_getElem?.2 ⟨length.symm, fun j p p' place place' => ⟨?_, ?_⟩⟩⟩
  · refine each ⟨id, i, j⟩ p p' ?_ ?_
    · simp only [productionAt?, known, Option.bind_some, production?, rule?, rule, place]
    · simp only [productionAt?, known', Option.bind_some, production?, rule?, rule', place']
  · have entry := congrArg (·[j]?) targets
    simpa only [List.getElem?_map, place, place', Option.map_some, Option.some.injEq] using entry

end Grammar

namespace Relocation

open Grammar

variable {m : Relocation} {grammars : Array Grammar}

theorem move_eq {ref : RowReference} {p : Production} {e : Event}
    (here : productionAt? grammars ref.address = some p)
    (refers : p.reference? ref.address = some ref) (moves : m.moved p.event = .ok e) :
    m.move grammars ref = .ok (setProduction grammars ref.address ⟨e, p.target⟩) := by
  simp only [move, here, m.event_eq_moved refers, moves]

/-- References to different places, each to a production that can be moved, are taken without a
fault; their productions are moved, and the others stay as they are. -/
theorem moveAll_places {refs : List RowReference}
    (distinct : refs.Pairwise fun a b => a.address ≠ b.address)
    (fit : ∀ ref ∈ refs, ∃ p, productionAt? grammars ref.address = some p ∧
      p.reference? ref.address = some ref ∧ ∃ e, m.moved p.event = .ok e) :
    ∃ grammars', m.moveAll grammars refs = .ok grammars' ∧
      grammars'.map outline = grammars.map outline ∧
      (∀ ref ∈ refs, ∀ p, productionAt? grammars ref.address = some p →
        ∃ e, m.moved p.event = .ok e ∧
          productionAt? grammars' ref.address = some ⟨e, p.target⟩) ∧
      ∀ a, (∀ ref ∈ refs, ref.address ≠ a) → productionAt? grammars' a = productionAt? grammars a := by
  induction refs generalizing grammars with
  | nil => exact ⟨grammars, rfl, rfl, fun _ mem => absurd mem List.not_mem_nil, fun _ _ => rfl⟩
  | cons ref refs ih =>
    obtain ⟨others, distinct⟩ := List.pairwise_cons.1 distinct
    obtain ⟨p, here, refers, e, moves⟩ := fit ref List.mem_cons_self
    have step := move_eq here refers moves
    have aside {a : Address} (ne : ref.address ≠ a) :
        productionAt? (setProduction grammars ref.address ⟨e, p.target⟩) a =
          productionAt? grammars a := by
      rw [productionAt?_setProduction, if_neg ne]
    obtain ⟨grammars', run, outlines, moved, kept⟩ := ih distinct fun ref' mem => by
      obtain ⟨p', here', rest⟩ := fit ref' (List.mem_cons_of_mem _ mem)
      exact ⟨p', (aside (others ref' mem)).trans here', rest⟩
    refine ⟨grammars', ?_, outlines.trans (outline_setProduction here rfl), ?_, ?_⟩
    · rw [moveAll, step]
      exact run
    · intro ref' mem p' here'
      rcases List.mem_cons.1 mem with rfl | later
      · cases here.symm.trans here'
        refine ⟨e, moves, (kept _ fun other mem => (others other mem).symm).trans ?_⟩
        rw [productionAt?_setProduction, if_pos rfl, here, Option.map_some]
      · exact moved ref' later p' ((aside (others ref' later)).trans here')
    · intro a elsewhere
      have ne := elsewhere ref List.mem_cons_self
      rw [kept a fun ref' mem => elsewhere ref' (List.mem_cons_of_mem _ mem), aside ne]

end Relocation

end ExiSchema
