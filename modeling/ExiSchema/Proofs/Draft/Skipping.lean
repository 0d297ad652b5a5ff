import ExiSchema.Proofs.Draft.Locals
import ExiSchema.Proofs.Draft.Lockstep
import ExiSchema.Proofs.Draft.Settling
import ExiSchema.Proofs.Schema.Matching

/-!
Leaving out what is not supported. A compilation that may do so differs from one that may not only
where the latter stops at an unsupported construct; and it does not stop there itself, since every
part of a model stands under a wrapper that leaves the part out.
-/

set_option autoImplicit false

namespace ExiSchema

open Draft

/-- If parts may be left out, the action does not fail for an unsupported construct. -/
def Spares {α : Type} (action : Drafting α) (d : Draft) : Prop :=
  d.store.Sound → d.options.skipUnsupported = true →
    Yields action d (fun _ _ => True) fun f _ => f.isNotImplemented = false

namespace Spares

variable {α β : Type} {d : Draft} {action : Drafting α} {next : α → Drafting β}

theorem pure {a : α} : Spares (pure a) d := fun _ _ => trivial

theorem bind (moving : Moving action d) (first : Spares action d) (rest : ∀ a d', Spares (next a) d') :
    Spares (action >>= next) d := by
  intro sound on
  refine (((moving sound).and (first sound on)).mono_fails fun _ _ bad => bad.2).bind ?_
  rintro a d' ⟨advances, _⟩
  exact rest a d' (advances.moves.grows.sound sound) (advances.moves.options ▸ on)

end Spares

namespace Draft

variable {d d' : Draft}

theorem spares_orSkip {α : Type} {part : Part} {action : Drafting α} (moving : Moving action d) :
    Spares (orSkip part action) d := by
  refine fun sound on => yields_orSkip_of ((moving sound).mono_ok fun _ _ _ => trivial)
    (fun _ _ _ _ _ => trivial) fun f d' bad stops => ?_
  rwa [bad.1.options, on, Bool.and_true] at stops

theorem supported_of_check {q : QName} {f : Fault} (bad : q.check = .error f) :
    f.isNotImplemented = false := by
  have nonAscii {text : String} (mem : f ∈ Label.faults text) : f.isNotImplemented = false := by
    unfold Label.faults at mem
    split at mem
    · cases mem
    · rw [List.mem_singleton.1 mem]
      rfl
  exact (List.mem_append.1 (QName.mem_faults bad)).elim nonAscii nonAscii

theorem spares_enterName (name : QName) : Spares (enterName name) d := by
  refine fun _ _ => (yields_onTables (UriTable.yields_enterName name d.uris)).mono
    (fun _ _ _ => trivial) ?_
  rintro f _ ⟨_, _, rfl | bad⟩
  · rfl
  · exact supported_of_check bad

theorem spares_grammar (id : GrammarId) : Spares (grammar id) d := by
  intro _ _
  unfold Yields grammar
  cases d.grammars[id]? with
  | some g => trivial
  | none => rfl

theorem moving_grammar (id : GrammarId) : Moving (grammar id) d := by
  have alone : Moving (grammar id >>= pure) d := moving_grammar_bind fun _ _ => .pure
  rwa [bind_pure] at alone

theorem spares_declareGlobal (name : QName) (id : GrammarId) : Spares (declareGlobal name id) d :=
  .bind (moving_grammar id) (spares_grammar id) fun _ _ =>
    .bind (.of_makes (makes_enterName name)) (spares_enterName name) fun _ _ _ _ => trivial

theorem spares_settle (es : List PendingElement) : ∀ d, Spares (settle es) d := by
  induction es with
  | nil => exact fun _ => .pure
  | cons e es ih =>
    exact fun d => .bind (moving_orSkip (moving_late e)) (spares_orSkip (moving_late e))
      fun _ d' => ih d'

theorem spares_settlePending : Spares settlePending d := fun sound on =>
  spares_settle d.pending { d with pending := [] } sound on

theorem spares_addTypes (ts : List TypeDef) : ∀ d, Spares (addTypes ts) d := by
  induction ts with
  | nil => exact fun _ => .pure
  | cons t ts ih =>
    exact fun d => .bind (moving_orSkip (moving_typeGrammars t d))
      (spares_orSkip (moving_typeGrammars t d)) fun _ d' => ih d'

theorem spares_addElements (es : List ElementDecl) : ∀ d, Spares (addElements es) d := by
  induction es with
  | nil => exact fun _ => .pure
  | cons e es ih =>
    refine fun d => .bind (moving_orSkip (moving_elementGrammar e))
      (spares_orSkip (moving_elementGrammar e)) fun id d' => ?_
    cases id with
    | none => exact ih d'
    | some id =>
      exact .bind (moving_declareGlobal e.name id) (spares_declareGlobal e.name id) fun _ d'' => ih d''

theorem spares_addSchema (s : Schema) : Spares (addSchema s) d :=
  .bind (moving_addTypes s.types d) (spares_addTypes s.types d) fun _ d' =>
    spares_addElements s.elements d'

/-- The tables can be made canonical, so what is left is to settle what was put off. -/
theorem spares_finish {F : List Fault} (idle : d.active = []) (empty : d.stack = [])
    (tracked : d.store.Tracked) (orderly : d.Orderly F) : Spares finish d := by
  intro sound on
  have settled := ((walks_settlePending sound).and
    (accounts_settlePending idle sound orderly)).and (spares_settlePending sound on)
  refine (settled.mono_fails fun _ _ bad => bad.2).bind ?_
  rintro _ d' ⟨⟨⟨walked, stack⟩, orderly', _⟩, _⟩
  obtain ⟨c, moved⟩ :=
    canonical_eq_ok (walked.grows.tracked tracked) orderly'.globals orderly'.locals
  refine yields_get_bind ?_
  rw [stack, empty, moved]
  trivial

theorem spares_whole (s : Schema) (options : Options) :
    Spares (addSchema s >>= fun _ => finish) (start options) := by
  intro sound on
  have added := ((walks_addSchema s sound).and
    (accounts_addSchema rfl (List.Subset.refl s.faults) sound (orderly_start options))).and
      (spares_addSchema s sound on)
  refine (added.mono_fails fun _ _ bad => bad.2).bind ?_
  rintro _ d ⟨⟨⟨walked, stack⟩, orderly, _⟩, _⟩
  exact spares_finish walked.active stack (walked.grows.tracked Store.tracked_initial) orderly
    (walked.grows.sound sound) (walked.options ▸ on)

/-- Nothing is left out where that is not allowed. -/
theorem Moves.skips_eq (moves : d.Moves d') (off : d.options.skipUnsupported = false) :
    d'.skips = d.skips := by
  have kept := moves.invariant (P := fun e => e.options = d.options ∧ e.skips = d.skips)
    (fun e e' move ⟨options, same⟩ => ⟨move.options.trans options, ?_⟩) ⟨rfl, rfl⟩
  · exact kept.2
  · cases move with
    | skip _ may =>
      rw [options, off] at may
      cases may
    | _ => exact same

end Draft

/-- Compilations of one model, the first of which may not leave anything out. -/
def skippingTwins : Twins where
  options o o' := o.skipUnsupported = false ∧ o' = { o with skipUnsupported := true }
  uses := Eq
  stops f := f.isNotImplemented = true
  ordered := by
    rintro o _ us _ ⟨_, rfl⟩ rfl
    rfl
  skips := fun ⟨off, _⟩ => .inr ⟨off, fun _ => id⟩

namespace Schema

theorem compile_skips_eq {s : Schema} {o : Options} {r : Compilation} (off : o.skipUnsupported = false)
    (run : s.compile o = .ok r) : r.skips = #[] := by
  obtain ⟨d, d', entered, finished, same⟩ := exists_finish_of_compile run
  have ripe : d.Ripe := .entered entered
  have moves := (moves_of_entered entered).moves
  calc
    r.skips = d'.skips := same
    _ = d.skips := (ripe.moves (exists_of_finish finished).1).skips_eq (moves.options ▸ off)
    _ = #[] := moves.skips_eq off

/-- Permission to leave out what is not supported changes nothing but compilations that stop there: a
compilation that succeeds without it succeeds with it and leaves nothing out, one that fails for
another reason fails alike, and with permission none fails for an unsupported construct. -/
theorem compile_skipping (s : Schema) (o : Options) :
    (∀ r, s.compile { o with skipUnsupported := false } = .ok r →
      s.compile { o with skipUnsupported := true } = .ok r ∧ r.skips = #[]) ∧
    (∀ f, s.compile { o with skipUnsupported := false } = .error f → f.isNotImplemented = false →
      s.compile { o with skipUnsupported := true } = .error f) ∧
    ∀ f, s.compile { o with skipUnsupported := true } = .error f → f.isNotImplemented = false := by
  have options : skippingTwins.options { o with skipUnsupported := false }
      { o with skipUnsupported := true } := ⟨rfl, rfl⟩
  have twins := Twins.stops_or_compile_eq options s.matches_refl
  refine ⟨fun r run => ?_, fun f run other => ?_, fun f run => ?_⟩
  · rcases twins with ⟨f, stopped, _⟩ | same
    · cases run.symm.trans stopped
    · exact ⟨same.trans run, compile_skips_eq rfl run⟩
  · rcases twins with ⟨f', stopped, unsupported⟩ | same
    · cases run.symm.trans stopped
      cases other.symm.trans unsupported
    · exact same.trans run
  · obtain ⟨d, ended⟩ := exists_error_of_compile run
    exact (spares_whole s _ (sound_start _) rfl).fails_of_eq ended

/-- A list type, and after it a type whose bounds cross. -/
def listedCrossed : Schema :=
  { crossed with types := .simple (some ⟨"", "l"⟩) (.list none) "string" :: crossed.types }

theorem listedCrossed_compile (sort : Bool) :
    listedCrossed.compile { skipUnsupported := false, sortAttributes := sort } =
        .error (.notImplemented .listTypes) ∧
      listedCrossed.compile { skipUnsupported := true, sortAttributes := sort } =
        .error (.invalidOccurs 2 1) := by
  have ends : ∀ skip sort, (match listedCrossed.compile ⟨skip, sort⟩ with
      | .ok _ => none
      | .error f => some f) =
        some (if skip then .invalidOccurs 2 1 else .notImplemented .listTypes) := by decide +kernel
  have fails (skip : Bool) : listedCrossed.compile ⟨skip, sort⟩ =
      .error (if skip then .invalidOccurs 2 1 else .notImplemented .listTypes) := by
    have fault := ends skip sort
    split at fault
    · cases fault
    · next run => exact run.trans (congrArg Except.error (Option.some.inj fault))
  exact ⟨fails false, fails true⟩

theorem compile_skipping_crossed :
    (∃ r, recursive.compile {} = .ok r ∧ recursive.compile { skipUnsupported := true } = .ok r ∧
      r.skips = #[]) ∧
    crossed.compile {} = .error (.invalidOccurs 2 1) ∧
    crossed.compile { skipUnsupported := true } = .error (.invalidOccurs 2 1) ∧
    listedCrossed.compile {} = .error (.notImplemented .listTypes) ∧
    listedCrossed.compile { skipUnsupported := true } = .error (.invalidOccurs 2 1) ∧
    Fault.isNotImplemented (.invalidOccurs 2 1) = false := by
  obtain ⟨r, run⟩ := exists_compile_of_isOk (s := recursive) (o := {}) (by decide +kernel)
  obtain ⟨same, skips⟩ := (compile_skipping recursive {}).1 r run
  obtain ⟨stops, fails⟩ := listedCrossed_compile false
  exact ⟨⟨r, run, same, skips⟩, crossed_compile,
    (compile_skipping crossed {}).2.1 _ crossed_compile rfl, stops, fails,
    (compile_skipping listedCrossed {}).2.2 _ fails⟩

end Schema

end ExiSchema
