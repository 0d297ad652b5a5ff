import ExiSchema.Proofs.Grammar.Alike
import ExiSchema.Proofs.Model.Grammars

/-!
The grammars of a model over two ways to number names. They differ in the rows of their events only;
in particular, whether there are such grammars does not depend on the rows.
-/

set_option autoImplicit false

namespace ExiSchema

/-- Every name has related rows in both, wherever an event mentions it. -/
structure Naming.Related (R : Event → Event → Prop) (ν ν' : Naming) : Prop where
  respected : Event.Respected R
  element : ∀ q, R (.startElement (ν.name q)) (.startElement (ν'.name q))
  elementNs : ∀ uri, R (.startElementNs (ν.uri uri)) (.startElementNs (ν'.uri uri))
  use : ∀ q value, R (.attribute (ν.name q) value) (.attribute (ν'.name q) value)
  useNs : ∀ uri, R (.attributeNs (ν.uri uri)) (.attributeNs (ν'.uri uri))

section

open Grammar

variable {R : Event → Event → Prop} {ν ν' : Naming}

theorem Naming.agree_rows (uris : List String) :
    Agree (List.Forall₂ fun row row' => ∃ uri, row = ν.uri uri ∧ row' = ν'.uri uri) (ν.rows uris)
      (ν'.rows uris) := by
  unfold Naming.rows
  refine .ite (.error _) (.mapM (fun uri => ?_) uris)
  exact Agree.refl.bind fun _ _ _ => .ok ⟨uri, rfl, rfl⟩

theorem forall₂_map_rows {rows rows' : List Nat} {event : Nat → Event}
    (all : List.Forall₂ (fun row row' => ∃ uri, row = ν.uri uri ∧ row' = ν'.uri uri) rows rows')
    (related : ∀ uri, R (event (ν.uri uri)) (event (ν'.uri uri))) :
    List.Forall₂ R (rows.map event) (rows'.map event) := by
  refine List.forall₂_map_left_iff.2 (List.forall₂_map_right_iff.2 (all.imp ?_))
  rintro _ _ ⟨uri, rfl, rfl⟩
  exact related uri

theorem Naming.Related.elementEvents (related : ν.Related R ν') (wildcard : Wildcard) :
    Agree (List.Forall₂ R) (ν.elementEvents wildcard) (ν'.elementEvents wildcard) := by
  cases wildcard with
  | any | except _ => exact .ok (.cons (related.respected.plain .startElementAny rfl) .nil)
  | among uris =>
    exact (agree_rows uris).bind fun _ _ rows => .ok (forall₂_map_rows rows related.elementNs)

theorem Naming.Related.attributeEvents (related : ν.Related R ν') (wildcard : Wildcard) :
    Agree (List.Forall₂ R) (ν.attributeEvents wildcard) (ν'.attributeEvents wildcard) := by
  cases wildcard with
  | any | except _ => exact .ok (.cons (related.respected.plain .attributeAny rfl) .nil)
  | among uris =>
    exact (agree_rows uris).bind fun _ _ rows => .ok (forall₂_map_rows rows related.useNs)

theorem AttributeUse.agree_grammar (related : ν.Related R ν') (u : AttributeUse) :
    Agree (Alike R) (u.grammar ν) (u.grammar ν') := by
  refine Agree.refl.bind fun value _ same => Agree.refl.bind fun _ _ _ => ?_
  subst same
  have single := alike_single related.respected (related.use u.name value)
  cases u.required with
  | true => exact .ok single
  | false => exact .ok (single.withEscape related.respected)

mutual

theorem Particle.agree_grammar (related : ν.Related R ν') : ∀ p : Particle,
    Agree (Alike R) (p.grammar ν) (p.grammar ν')
  | ⟨minOccurs, maxOccurs, term⟩ => (term.agree_grammar related).bind fun _ _ alike =>
    agree_repeated related.respected minOccurs maxOccurs alike
termination_by structural p => p

theorem Term.agree_grammar (related : ν.Related R ν') : ∀ t : Term,
    Agree (Alike R) (t.grammar ν) (t.grammar ν')
  | .element decl => Agree.refl.bind fun _ _ _ =>
    .ok (alike_single related.respected (related.element decl.name))
  | .wildcard wildcard => (related.elementEvents wildcard).bind fun _ _ events =>
    .ok (alike_oneOf related.respected events)
  | .group compositor particles => (agree_grammarsOf related particles).bind fun _ _ alike =>
    agree_grouped related.respected compositor alike
termination_by structural t => t

theorem agree_grammarsOf (related : ν.Related R ν') : ∀ ps : List Particle,
    Agree (List.Forall₂ (Alike R)) (grammarsOf ν ps) (grammarsOf ν' ps)
  | [] => .ok .nil
  | p :: ps => (p.agree_grammar related).bind fun _ _ first =>
    (agree_grammarsOf related ps).bind fun _ _ rest => .ok (.cons first rest)
termination_by structural ps => ps

end

theorem Content.agree_grammar (related : ν.Related R ν') (c : Content) :
    Agree (Alike R) (c.grammar ν) (c.grammar ν') := by
  cases c with
  | empty => exact .ok (alike_endOnly related.respected)
  | simple builtIn =>
    refine Agree.refl.bind fun value _ same => .ok ?_
    subst same
    exact alike_single related.respected (related.respected.plain _ rfl)
  | elementOnly particle => exact particle.agree_grammar related
  | mixed particle =>
    exact (particle.agree_grammar related).bind fun _ _ alike =>
      .ok (alike.withText related.respected)

theorem agree_complex (resp : Event.Respected R) {uses uses' : List Grammar}
    {events events' : Option (List Event)} {content content' : Grammar}
    (usesAlike : List.Forall₂ (Alike R) uses uses')
    (eventsAlike : Option.Rel (List.Forall₂ R) events events') (alike : Alike R content content') :
    Agree (Alike R) (complex uses events content) (complex uses' events' content') := by
  have put {segments segments' : List Grammar} (all : List.Forall₂ (Alike R) segments segments') :
      Agree (Alike R) (if segments.isEmpty then .ok content else sequence (segments ++ [content]))
        (if segments'.isEmpty then .ok content' else sequence (segments' ++ [content'])) := by
    cases all with
    | nil => exact .ok alike
    | cons first rest =>
      exact agree_sequence resp (.cons first (List.rel_append rest (.cons alike .nil)))
  cases eventsAlike with
  | none => exact put usesAlike
  | some more =>
    refine put (List.forall₂_map_left_iff.2 (List.forall₂_map_right_iff.2 ?_))
    exact (List.rel_append usesAlike (.cons (alike_endOnly resp) .nil)).imp
      fun _ _ segment => segment.withStartEvents more

theorem agree_mapM_wildcard (related : ν.Related R ν') (wildcard : Option Wildcard) :
    Agree (Option.Rel (List.Forall₂ R)) (wildcard.mapM ν.attributeEvents)
      (wildcard.mapM ν'.attributeEvents) := by
  cases wildcard with
  | none => exact .ok .none
  | some wildcard =>
    rw [Option.mapM_some, Option.mapM_some]
    exact (related.attributeEvents wildcard).map fun _ _ events => .some events

/-- Both grammars of a type are alike over both numberings, or both are missing for one fault. -/
theorem TypeDef.agree_grammars (options : Options) (related : ν.Related R ν') (t : TypeDef) :
    Agree (fun gs gs' => Alike R gs.1 gs'.1 ∧ Alike R gs.2 gs'.2) (t.grammars options ν)
      (t.grammars options ν') := by
  have resp := related.respected
  match t with
  | .simple _ .atomic builtIn =>
    refine Agree.refl.bind fun value _ same => .ok ?_
    subst same
    exact ⟨alike_single resp (resp.plain _ rfl), alike_endOnly resp⟩
  | .simple _ (.list _) _ => exact .error _
  | .simple _ (.union _) _ => exact .error _
  | .complex _ attributes wildcard content =>
    refine (Agree.mapM (AttributeUse.agree_grammar related) _).bind fun _ _ uses => ?_
    refine (content.agree_grammar related).bind fun _ _ alike => ?_
    refine (agree_mapM_wildcard related wildcard).bind fun _ _ events => ?_
    refine (agree_complex resp uses events alike).bind fun _ _ whole => ?_
    exact (agree_complex resp uses events (alike_endOnly resp)).bind fun _ _ empty =>
      .ok ⟨whole, empty⟩

/-- A construction of grammars that uses rows only to put them into events. -/
def Natural (built : Naming → Except Fault Grammar) : Prop :=
  ∀ R ν ν', ν.Related R ν' → Agree (Alike R) (built ν) (built ν')

/-- Whether a grammar can be built does not depend on the rows. -/
theorem Naming.related_ends (ν ν' : Naming) :
    ν.Related (fun e e' => e = .endElement ↔ e' = .endElement) ν' := by
  refine ⟨⟨fun _ _ => Iff.rfl, fun _ _ same => same⟩, ?_, ?_, ?_, ?_⟩ <;> simp

/-- An element without a type may hold anything. -/
def heldGrammar (options : Options) : Option TypeDef → Naming → Except Fault Grammar
  | none, _ => .ok .anything
  | some t, ν => (t.grammars options ν).map Prod.fst

theorem natural_heldGrammar (options : Options) (type : Option TypeDef) :
    Natural (heldGrammar options type) := by
  intro R ν ν' related
  cases type with
  | none => exact .ok (alike_anything related.respected)
  | some t => exact (t.agree_grammars options related).map fun _ _ alike => alike.1

theorem natural_emptyGrammar (options : Options) (t : TypeDef) :
    Natural fun ν => (t.grammars options ν).map Prod.snd :=
  fun _ _ _ related => (t.agree_grammars options related).map fun _ _ alike => alike.2

/-- There are grammars for the type, over whatever rows. -/
def TypeDef.Builds (options : Options) (t : TypeDef) : Prop :=
  ∃ ν gs, t.grammars options ν = .ok gs

theorem TypeDef.Builds.grammars {options : Options} {t : TypeDef} (builds : t.Builds options)
    (ν : Naming) : ∃ gs, t.grammars options ν = .ok gs := by
  obtain ⟨ν', gs, run⟩ := builds
  obtain ⟨gs', run', _⟩ := (t.agree_grammars options (Naming.related_ends ν' ν)).exists_ok run
  exact ⟨gs', run'⟩

end

end ExiSchema
