import ExiSchema.Draft.Operation
import ExiSchema.Proofs.Draft.Walking

/-!
Drafts that operations lead to. Every operation, with any arguments and whatever comes of it, walks
on from the draft that it finds; so a property that holds at the start and is kept by each step of
the store holds of every draft that can be reached.
-/

set_option autoImplicit false

namespace ExiSchema

/-- What an operation gives back is the result of the action, in another form. -/
theorem Walks.outcome {α β : Type} {d : Draft} {action : Drafting α} {ok : α → Draft → Prop}
    (spec : Walks action d ok) (f : α → β) :
    Walks (action >>= fun a => Pure.pure (f a)) d fun _ _ => True :=
  spec.bind fun _ _ _ _ => .pure trivial

namespace Draft

variable {d : Draft}

theorem adds_complexEmpty (uses : List GrammarId) (wildcard : Option Wildcard)
    (sound : d.store.Sound) :
    Yields (complexEmpty uses wildcard) d (fun _ d' => d.Adds d') fun _ d' => d.Adds d' :=
  (makes_emptyContent.adds sound).bind fun content _ adds =>
    (adds_complexContent uses wildcard content (adds.grows.sound sound)).mono (fun _ _ => adds.trans)
      fun _ _ => adds.trans

theorem adds_admitAttributes (id : GrammarId) (wildcard : Wildcard) (sound : d.store.Sound) :
    Yields (admitAttributes id wildcard) d (fun _ d' => d.Adds d') fun _ d' => d.Adds d' := by
  refine ((makes_admittedEvents wildcard sound).mono_fails fun _ _ bad => bad.1).bind ?_
  rintro events d₁ ⟨adds, _, ⟨_, _, stand⟩, _⟩
  exact ((makes_admitEvents stand id).adds (adds.grows.sound sound)).mono (fun _ _ => adds.trans)
    fun _ _ => adds.trans

theorem walks_declareGlobal (name : QName) (id : GrammarId) :
    Walks (declareGlobal name id) d fun _ d' => d'.stack = d.stack :=
  walks_grammar_bind fun _ _ => (Walks.of_makes (makes_enterName name)).bind fun _ _ _ here =>
    .modify ⟨.refl _, List.suffix_refl _, rfl, rfl⟩ here.1

theorem walks_elementGrammar (decl : ElementDecl) :
    Walks (elementGrammar decl) d fun _ d' => d'.stack = d.stack := by
  have copies {id : GrammarId} {d' : Draft} (stack : d'.stack = d.stack) :
      Walks (forElement id) d' fun _ d'' => d''.stack = d.stack :=
    (Walks.of_makes (makes_forElement id)).mono fun _ _ _ here => here.1.trans stack
  unfold elementGrammar
  split
  · exact (walks_typeGrammars _ d).bind fun _ _ _ stack => copies stack
  · exact walks_anyTypeGrammar.bind fun _ _ _ stack => copies stack

end Draft

open Draft

/-- The operation builds grammars and registers nothing. -/
def Operation.builds : Operation → Bool
  | .declareLocal _ _ | .declareGlobal _ _ | .declareType _ _ | .typeGrammars _
  | .elementGrammar _ => false
  | _ => true

theorem Operation.adds (op : Operation) (builds : op.builds = true) {d : Draft}
    (sound : d.store.Sound) : Yields op.run d (fun _ d' => d.Adds d') fun _ d' => d.Adds d' := by
  have outcome {α β : Type} {action : Drafting α} (f : α → β)
      (spec : Yields action d (fun _ d' => d.Adds d') fun _ d' => d.Adds d') :
      Yields (action >>= fun a => Pure.pure (f a)) d (fun _ d' => d.Adds d') fun _ d' => d.Adds d' :=
    spec.bind fun _ _ adds => adds
  cases op with
  | simpleContent builtIn => exact outcome _ ((makes_simpleContent builtIn).adds sound)
  | emptyContent => exact outcome _ (makes_emptyContent.adds sound)
  | attributeUse required name builtIn =>
    exact outcome _ ((makes_attributeUse ⟨name, required, builtIn⟩).adds sound)
  | elementTerm name => exact outcome _ ((makes_elementTerm name).adds sound)
  | wildcardTerm wildcard => exact outcome _ ((makes_wildcardTerm wildcard).adds sound)
  | chain parts => exact outcome _ ((makes_chain parts).adds sound)
  | complexContent attributes wildcard content =>
    exact outcome _ (adds_complexContent attributes wildcard content sound)
  | complexEmpty attributes wildcard => exact outcome _ (adds_complexEmpty attributes wildcard sound)
  | admitAttributes id wildcard => exact outcome _ (adds_admitAttributes id wildcard sound)
  | anyContent => exact outcome _ (makes_anyContent.adds sound)
  | anyAttributes => exact outcome _ (makes_anyAttributes.adds sound)
  | particle minOccurs maxOccurs term =>
    exact outcome _ ((makes_particle minOccurs maxOccurs term).adds sound)
  | sequence terms => exact outcome _ ((makes_sequence terms).adds sound)
  | choice terms => exact outcome _ ((makes_choice terms).adds sound)
  | all terms => exact outcome _ ((makes_all terms).adds sound)
  | mixed content => exact outcome _ ((makes_mixed content).adds sound)
  | forElement type => exact outcome _ ((makes_forElement type).adds sound)
  | declareLocal _ _ | declareGlobal _ _ | declareType _ _ | typeGrammars _ | elementGrammar _ =>
    cases builds

theorem Operation.walks (op : Operation) (d : Draft) : Walks op.run d fun _ _ => True := by
  cases op with
  | declareLocal name type => exact (walks_declareLocal name type).outcome _
  | declareGlobal name id => exact (walks_declareGlobal name id).outcome _
  | declareType name grammars => exact (walks_declareType name grammars).outcome _
  | typeGrammars type => exact (walks_typeGrammars type d).outcome _
  | elementGrammar decl => exact (walks_elementGrammar decl).outcome _
  | _ =>
    exact fun sound => (adds _ rfl sound).mono (fun _ _ adds => ⟨adds.walked.1, trivial⟩)
      fun _ _ adds => adds.walked.1

/-- What an operation leaves behind is what it leaves on either outcome. -/
theorem Operation.after_of_yields {op : Operation} {d : Draft} {P : Draft → Prop}
    (spec : Yields op.run d (fun _ d' => P d') fun _ d' => P d') : P (op.after d) := by
  unfold after
  cases run : op.run d with
  | ok _ _ => exact spec.ok_of_eq run
  | error _ _ => exact spec.fails_of_eq run

theorem Operation.walked (op : Operation) {d : Draft} (sound : d.store.Sound) :
    d.Walked (op.after d) :=
  after_of_yields ((op.walks d sound).mono_ok fun _ _ good => good.1)

/-- The store that every compilation starts with. -/
def Store.initial : Store := ⟨.initial, #[], #[]⟩

namespace Draft

theorem Reachable.grows {d : Draft} (reachable : d.Reachable) :
    Store.initial.Grows d.store ∧ d.store.Sound := by
  induction reachable with
  | start options => exact ⟨.refl _, fun g mem => absurd mem (Array.not_mem_empty g)⟩
  | after _ op ih =>
    have walked := op.walked ih.2
    exact ⟨ih.1.trans walked.grows, walked.grows.sound ih.2⟩

/-- Every grammar of a draft that can be reached is well-formed. -/
theorem Reachable.sound {d : Draft} (reachable : d.Reachable) : d.store.Sound := reachable.grows.2

theorem sound_start (options : Options) : (start options).store.Sound :=
  (Reachable.start options).sound

/-- What holds of the first store and is kept by every step holds of every draft that can be
reached. -/
theorem Reachable.invariant {P : Store → Prop} (initially : P .initial)
    (kept : ∀ s t, Store.Step s t → P s → P t) {d : Draft} (reachable : d.Reachable) : P d.store :=
  reachable.grows.1.invariant kept initially

end Draft

end ExiSchema
