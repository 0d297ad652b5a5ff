import ExiSchema.Proofs.Draft.Reaching

/-!
From the steps of a walk to the walk. A property of actions that the small ones have, and that goes over
to one action after another, is one of every walk over a type model and of every operation. The
induction over the model is done here, whatever the property says.
-/

set_option autoImplicit false

namespace ExiSchema

open Draft

/-- A property of actions, at the draft that they start from, that goes from the steps of a walk to the
walk. What an action is followed by may rely on what the action is known to yield. -/
structure Stepwise (P : {α : Type} → Drafting α → Draft → Prop) : Prop where
  pure : ∀ {α : Type} {d : Draft} {a : α}, P (pure a) d
  throw : ∀ {α : Type} {d : Draft} {fault : Fault}, P (throw fault : Drafting α) d
  get_bind : ∀ {α : Type} {d : Draft} {next : Draft → Drafting α}, P (next d) d → P (get >>= next) d
  bind_yields : ∀ {α β : Type} {d : Draft} {action : Drafting α} {next : α → Drafting β}
    {M : α → Draft → Prop}, P action d →
    (d.store.Sound → Yields action d M fun _ _ => True) →
    (∀ a d', M a d' → P (next a) d') → P (action >>= next) d
  of_adds : ∀ {α : Type} {d : Draft} {action : Drafting α},
    (d.store.Sound → Yields action d (fun _ d' => d.Adds d') fun _ d' => d.Adds d') → P action d
  push : ∀ {d : Draft} (id : GrammarId), P (push id) d
  pop : ∀ {d : Draft}, P pop d
  popMany : ∀ {d : Draft} (n : Nat), P (popMany n) d
  onceFor : ∀ {d : Draft} {name : Option QName} {build : Drafting GrammarPair},
    (∀ d, P build d) → P (onceFor name build) d
  anyTypeGrammar : ∀ {d : Draft}, P anyTypeGrammar d
  declareLocal : ∀ {d : Draft} (name : NameRef) (type : GrammarId), P (declareLocal name type) d
  putOff : ∀ {d : Draft} {type : TypeDef} (name : NameRef), d.isActive type = true →
    P (putOff name type) d
  orSkip : ∀ {α : Type} {d : Draft} {part : Part} {action : Drafting α}, P action d →
    P (orSkip part action) d

namespace Stepwise

variable {P : {α : Type} → Drafting α → Draft → Prop} {α β γ : Type} {d : Draft}
  {action : Drafting α} (steps : Stepwise P)
include steps

theorem bind {next : α → Drafting β} (first : P action d) (rest : ∀ a d', P (next a) d') :
    P (action >>= next) d :=
  steps.bind_yields first (fun _ => yields_trivial) fun a d' _ => rest a d'

theorem of_makes {R : Draft → α → γ → Prop} {built : Naming → Except Fault γ}
    (spec : Makes action d R built) : P action d := steps.of_adds spec.adds

theorem build_push {action : Drafting GrammarId} {built : Naming → Except Fault Grammar}
    (spec : Makes action d Holds built) : P (action >>= Draft.push) d :=
  steps.bind (steps.of_makes spec) fun id _ => steps.push id

theorem guarded {allowed : Bool} {fault : Fault} {next : Unit → Drafting α} (rest : P (next ()) d) :
    P (if allowed = true then next () else MonadExcept.throw fault >>= next) d := by
  split
  · exact rest
  · exact steps.throw

mutual

theorem typeGrammars : ∀ (t : TypeDef) (d : Draft), P (Draft.typeGrammars t) d
  | .simple name variety builtIn, d => by
    rw [Draft.typeGrammars]
    exact steps.onceFor fun d => steps.of_makes (makes_varietyGrammars {} name variety builtIn)
  | .complex name attributes wildcard content, d => by
    rw [Draft.typeGrammars]
    refine steps.onceFor fun d => ?_
    refine steps.bind (steps.of_makes (makes_attributesOf attributes)) fun uses d₁ => ?_
    refine steps.bind (contentGrammar content d₁) fun id d₂ => ?_
    refine steps.bind (steps.of_adds (adds_complexContent uses wildcard id)) fun _ d₃ => ?_
    exact steps.bind (steps.of_adds (adds_complexEmpty uses wildcard)) fun _ _ => steps.pure
termination_by structural t => t

theorem contentGrammar : ∀ (c : Content) (d : Draft), P (Draft.contentGrammar c) d
  | .empty, d => steps.of_makes makes_emptyContent
  | .simple builtIn, d => steps.of_makes (makes_simpleContent builtIn)
  | .elementOnly particle, d => by
    rw [Draft.contentGrammar]
    exact steps.bind (placeParticle particle d) fun _ _ => steps.pop
  | .mixed particle, d => by
    rw [Draft.contentGrammar]
    refine steps.bind (placeParticle particle d) fun _ _ => ?_
    exact steps.bind steps.pop fun id _ => steps.of_makes (makes_mixed id)
termination_by structural c => c

theorem placeParticle : ∀ (p : Particle) (d : Draft), P (Draft.placeParticle p) d
  | ⟨minOccurs, maxOccurs, term⟩, d => by
    rw [Draft.placeParticle]
    refine steps.bind (placeTerm term d) fun _ _ => ?_
    exact steps.bind steps.pop fun id _ => steps.build_push (makes_particle minOccurs maxOccurs id)
termination_by structural p => p

theorem placeTerm : ∀ (term : Term) (d : Draft), P (Draft.placeTerm term) d
  | .element decl, d => by
    rw [Draft.placeTerm]
    exact steps.bind (meetElement decl d) fun _ _ => steps.build_push (makes_elementTerm decl.name)
  | .wildcard wildcard, d => by
    rw [Draft.placeTerm]
    exact steps.build_push (makes_wildcardTerm wildcard)
  | .group compositor particles, d => by
    rw [Draft.placeTerm]
    refine steps.bind (placeParticles particles d) fun _ _ => ?_
    exact steps.bind (steps.popMany _) fun ids _ => steps.build_push (makes_group compositor ids)
termination_by structural term => term

theorem placeParticles : ∀ (ps : List Particle) (d : Draft), P (Draft.placeParticles ps) d
  | [], d => by
    rw [Draft.placeParticles]
    exact steps.pure
  | p :: ps, d => by
    rw [Draft.placeParticles]
    exact steps.bind (placeParticle p d) fun _ _ => placeParticles ps _
termination_by structural ps => ps

theorem meetElement : ∀ (decl : ElementDecl) (d : Draft), P (Draft.meetElement decl) d
  | ⟨name, substitutes, none⟩, d => by
    rw [Draft.meetElement]
    refine steps.guarded (steps.bind (steps.of_makes (makes_enterName name)) fun ref d₁ => ?_)
    refine steps.bind steps.anyTypeGrammar fun id _ => ?_
    exact steps.bind (steps.declareLocal ref id) fun _ _ => steps.pure
  | ⟨name, substitutes, some type⟩, d => by
    rw [Draft.meetElement]
    refine steps.guarded (steps.bind (steps.of_makes (makes_enterName name)) fun ref d₁ => ?_)
    refine steps.get_bind ?_
    split
    · next active => exact steps.putOff ref active
    · refine steps.bind (typeGrammars type d₁) fun grammars _ => ?_
      exact steps.bind (steps.declareLocal ref grammars.grammar) fun _ _ => steps.pure
termination_by structural decl => decl

end

theorem elementGrammar (decl : ElementDecl) : P (Draft.elementGrammar decl) d := by
  have copies (id : GrammarId) (d' : Draft) : P (forElement id) d' := steps.of_makes (makes_forElement id)
  unfold Draft.elementGrammar
  split
  · exact steps.bind (steps.typeGrammars _ d) fun pair d' => copies pair.grammar d'
  · exact steps.bind steps.anyTypeGrammar fun id d' => copies id d'

theorem settle (pending : List PendingElement) : ∀ d, P (Draft.settle pending) d := by
  induction pending with
  | nil => exact fun _ => steps.pure
  | cons e rest ih =>
    intro d
    refine steps.bind (steps.orSkip ?_) fun _ d' => ih d'
    exact steps.bind (steps.typeGrammars e.type d) fun grammars _ =>
      steps.declareLocal e.name grammars.grammar

/-- Every operation is made of the steps, but for the two that register something from outside. -/
theorem run (op : Operation)
    (ofType : ∀ name pair, op = .declareType name pair → P (declareType name pair) d)
    (ofElement : ∀ name id, op = .declareGlobal name id → P (declareGlobal name id) d) :
    P op.run d := by
  have outcome {α β : Type} {action : Drafting α} (f : α → β) (spec : P action d) :
      P (action >>= fun a => Pure.pure (f a)) d := steps.bind spec fun _ _ => steps.pure
  cases op with
  | declareLocal name type => exact outcome _ (steps.declareLocal name type)
  | declareGlobal name id => exact outcome _ (ofElement name id rfl)
  | declareType name grammars => exact outcome _ (ofType name grammars rfl)
  | typeGrammars type => exact outcome _ (steps.typeGrammars type d)
  | elementGrammar decl => exact outcome _ (steps.elementGrammar decl)
  | _ => exact steps.of_adds (Operation.adds _ rfl)

end Stepwise

end ExiSchema
