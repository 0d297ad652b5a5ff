import ExiSchema.Draft.Session
import ExiSchema.Proofs.Actions
import ExiSchema.Proofs.Draft.Aloof
import ExiSchema.Proofs.Draft.Framing

/-!
What the walk does to the stack. An action that succeeds leaves a fixed number of grammars on top of
those that it found, one that fails may leave any number of them, and none of those that it found is
ever looked at. What is being compiled is the same afterwards. So it does not matter what a failed
operation has left behind.
-/

set_option autoImplicit false

namespace ExiSchema

/-- Puts grammars below those on the stack. -/
def Turn.below (stack : List GrammarId) : Turn where
  stack top := top ++ stack

/-- The action leaves so many grammars on the stack, or some if it fails, and comes to the same on
every stack. -/
structure Balanced {α : Type} (action : Drafting α) (count : Nat) : Prop where
  yields : ∀ d, Yields action d
    (fun _ d' => (∃ ids, ids.length = count ∧ d'.stack = ids ++ d.stack) ∧ d'.active = d.active)
    fun _ d' => d.stack <:+ d'.stack ∧ d'.active = d.active
  apart : ∀ (d : Draft) stack,
    action { d with stack } = (Turn.below stack).result (action { d with stack := [] })

open Draft

namespace Balanced

variable {α β γ : Type} {d : Draft} {action : Drafting α} {next : α → Drafting β} {m n : Nat}

/-- What is put below the stack makes no difference, whatever stands on it. -/
theorem turn (balanced : Balanced action n) (d : Draft) (stack : List GrammarId) :
    action (d.turn (.below stack)) = (Turn.below stack).result (action d) := by
  have here := balanced.apart d (d.stack ++ stack)
  have there := balanced.apart d d.stack
  change action { d with stack := d.stack ++ stack } = _
  rw [here]
  rw [there]
  cases action { d with stack := [] } with
  | ok a e => simp [Turn.result, Draft.turn, Turn.below]
  | error f e => simp [Turn.result, Draft.turn, Turn.below]

theorem of_turn (yields : ∀ d, Yields action d
      (fun _ d' => (∃ ids, ids.length = n ∧ d'.stack = ids ++ d.stack) ∧ d'.active = d.active)
      fun _ d' => d.stack <:+ d'.stack ∧ d'.active = d.active)
    (turn : ∀ (d : Draft) stack,
      action (d.turn (.below stack)) = (Turn.below stack).result (action d)) : Balanced action n :=
  ⟨yields, fun d stack => turn { d with stack := [] } stack⟩

theorem of_aloof (aloof : Aloof action) : Balanced action 0 := by
  refine of_turn (fun d => ?_) fun d stack => aloof _ d
  have kept := kept_of_aloof aloof d
  unfold Yields
  cases run : action d with
  | ok a d' =>
    rw [run] at kept
    simp only [Turn.result, EStateM.Result.ok.injEq, true_and] at kept
    rw [← kept]
    exact ⟨⟨[], rfl, rfl⟩, rfl⟩
  | error f d' =>
    rw [run] at kept
    simp only [Turn.result, EStateM.Result.error.injEq, true_and] at kept
    rw [← kept]
    exact ⟨List.suffix_refl _, rfl⟩

theorem pure {a : α} : Balanced (pure a) 0 := of_aloof .pure

theorem throw {fault : Fault} : Balanced (throw fault : Drafting α) n := by
  refine ⟨fun d => ?_, fun _ _ => rfl⟩
  exact yields_throw ⟨List.suffix_refl _, rfl⟩

theorem modify {f : Draft → Draft} (stack : ∀ d, (f d).stack = d.stack)
    (active : ∀ d, (f d).active = d.active)
    (same : ∀ d stack, f (d.turn (.below stack)) = (f d).turn (.below stack)) :
    Balanced (modify f) 0 :=
  of_turn (fun d => ⟨⟨[], rfl, stack d⟩, active d⟩)
    fun d stack => congrArg (EStateM.Result.ok ()) (same d stack)

/-- What is looked up may not be the stack. -/
theorem get_bind {next : Draft → Drafting α}
    (same : ∀ d stack, next (d.turn (.below stack)) = next d) (rest : ∀ d, Balanced (next d) n) :
    Balanced (get >>= next) n := by
  refine of_turn (fun d => (rest d).yields d) fun d stack => ?_
  change next (d.turn (.below stack)) (d.turn (.below stack)) = _
  rw [same]
  exact (rest d).turn d stack

theorem bind (first : Balanced action m) (rest : ∀ a, Balanced (next a) n) :
    Balanced (action >>= next) (n + m) := by
  refine of_turn (fun d => (first.yields d).bind ?_) fun d stack => ?_
  · rintro a d₁ ⟨⟨ids, length, stack₁⟩, active₁⟩
    refine ((rest a).yields d₁).mono ?_ ?_
    · rintro b d₂ ⟨⟨ids', length', stack₂⟩, active₂⟩
      refine ⟨⟨ids' ++ ids, ?_, ?_⟩, active₂.trans active₁⟩
      · rw [List.length_append, length', length]
      · rw [stack₂, stack₁, List.append_assoc]
    · rintro f d₂ ⟨stack₂, active₂⟩
      exact ⟨(stack₁ ▸ List.suffix_append ids d.stack).trans stack₂, active₂.trans active₁⟩
  · simp only [Bind.bind, EStateM.bind, first.turn]
    cases action d with
    | ok a d' => exact (rest a).turn d' stack
    | error f d' => rfl

/-- What an action has left on the stack is taken from there again. -/
theorem bind_take {take : Drafting γ} {next : γ → Drafting β} (first : Balanced action m)
    (value : List GrammarId → γ)
    (takes : ∀ (d : Draft) ids stack, ids.length = m → d.stack = ids ++ stack →
      take d = .ok (value ids) { d with stack })
    (rest : ∀ c, Balanced (next c) n) : Balanced (action >>= fun _ => take >>= next) n := by
  refine of_turn (fun d => (first.yields d).bind ?_) fun d stack => ?_
  · rintro a d₁ ⟨⟨ids, length, stack₁⟩, active₁⟩
    refine yields_bind_iff.2 ?_
    rw [Yields, takes d₁ ids d.stack length stack₁]
    exact ((rest (value ids)).yields _).mono
      (fun _ _ here => ⟨here.1, here.2.trans active₁⟩) fun _ _ here => ⟨here.1, here.2.trans active₁⟩
  · have spec := first.yields d
    simp only [Yields] at spec
    simp only [Bind.bind, EStateM.bind, first.turn]
    cases run : action d with
    | error f d' => rfl
    | ok a d' =>
      rw [run] at spec
      obtain ⟨⟨ids, length, stack'⟩, _⟩ := spec
      have top : (d'.turn (.below stack)).stack = ids ++ (d.stack ++ stack) := by
        rw [← List.append_assoc, ← stack']
        rfl
      simp only [Turn.result, takes d' ids d.stack length stack', takes _ ids _ length top]
      exact (rest (value ids)).turn { d' with stack := d.stack } stack

end Balanced

namespace Draft

variable {α : Type} {n : Nat}

theorem balanced_push (id : GrammarId) : Balanced (push id) 1 :=
  .of_turn (fun _ => ⟨⟨[id], rfl, rfl⟩, rfl⟩) fun _ _ => rfl

/-- A grammar that is built and then put on the stack. -/
theorem balanced_build_push {action : Drafting GrammarId} (aloof : Aloof action) :
    Balanced (action >>= push) 1 := (Balanced.of_aloof aloof).bind balanced_push

theorem balanced_pop {action : Drafting α} {β : Type} {next : GrammarId → Drafting β}
    (first : Balanced action 1) (rest : ∀ id, Balanced (next id) n) :
    Balanced (action >>= fun _ => pop >>= next) n := by
  refine first.bind_take (fun ids => ids.headD 0) (fun d ids stack one top => ?_) rest
  obtain ⟨id, rfl⟩ := List.length_eq_one_iff.1 one
  rw [pop, top]
  rfl

theorem balanced_popMany {action : Drafting α} {β : Type} {count : Nat}
    {next : List GrammarId → Drafting β} (first : Balanced action count)
    (rest : ∀ ids, Balanced (next ids) n) :
    Balanced (action >>= fun _ => popMany count >>= next) n := by
  refine first.bind_take List.reverse (fun d ids stack length top => ?_) rest
  subst length
  have enough : ids.length ≤ d.stack.length := by simp [top]
  rw [popMany, if_pos enough, top, List.take_left, List.drop_left]

theorem balanced_whileActive {name : QName} {action : Drafting α} (inner : Balanced action n) :
    Balanced (whileActive name action) n := by
  refine .of_turn (fun d => ?_) fun d stack => ?_
  · exact yields_whileActive_iff.2 ((inner.yields _).mono
      (fun _ _ good => ⟨good.1, congrArg List.tail good.2⟩)
      fun _ _ bad => ⟨bad.1, congrArg List.tail bad.2⟩)
  · have entered : { d.turn (.below stack) with active := name :: d.active } =
        turn (.below stack) { d with active := name :: d.active } := rfl
    have active : (d.turn (.below stack)).active = d.active := rfl
    simp only [whileActive, active, entered, inner.turn]
    cases action { d with active := name :: d.active } <;> rfl

theorem balanced_onceFor {name : Option QName} {build : Drafting GrammarPair}
    (inner : Balanced build 0) : Balanced (onceFor name build) 0 := by
  cases name with
  | none => exact inner
  | some name =>
    refine .get_bind (fun _ _ => rfl) fun d => ?_
    split
    · exact .pure
    split
    · exact .throw
    refine (balanced_whileActive inner).bind fun pair => ?_
    exact (Balanced.of_aloof (aloof_declareType name pair)).bind fun _ => .pure

theorem balanced_attributesOf (uses : List AttributeUse) : Balanced (attributesOf uses) 0 :=
  .get_bind (fun _ _ => rfl) fun _ =>
    .of_aloof (.mapM (fun u : AttributeUse => aloof_attributeUse u.required u.name u.builtIn) _)

theorem balanced_putOff (name : NameRef) (type : TypeDef) : Balanced (putOff name type) 0 :=
  .modify (fun _ => rfl) (fun _ => rfl) fun _ _ => rfl

mutual

theorem balanced_typeGrammars : ∀ t : TypeDef, Balanced (typeGrammars t) 0
  | .simple name variety builtIn => by
    rw [typeGrammars]
    exact balanced_onceFor (.of_aloof (aloof_varietyGrammars builtIn variety))
  | .complex name attributes wildcard content => by
    rw [typeGrammars]
    refine balanced_onceFor ((balanced_attributesOf attributes).bind fun uses => ?_)
    refine (balanced_contentGrammar content).bind fun id => ?_
    refine (Balanced.of_aloof (aloof_complexContent uses wildcard id)).bind fun _ => ?_
    exact (Balanced.of_aloof (aloof_complexEmpty uses wildcard)).bind fun _ => .pure
termination_by structural t => t

theorem balanced_contentGrammar : ∀ c : Content, Balanced (contentGrammar c) 0
  | .empty => .of_aloof aloof_emptyContent
  | .simple builtIn => .of_aloof (aloof_simpleContent builtIn)
  | .elementOnly particle => by
    rw [contentGrammar, ← bind_pure pop]
    exact balanced_pop (balanced_placeParticle particle) fun _ => .pure
  | .mixed particle => by
    rw [contentGrammar]
    exact balanced_pop (balanced_placeParticle particle) fun id => .of_aloof (aloof_mixed id)
termination_by structural c => c

theorem balanced_placeParticle : ∀ p : Particle, Balanced (placeParticle p) 1
  | ⟨minOccurs, maxOccurs, term⟩ => by
    rw [placeParticle]
    exact balanced_pop (balanced_placeTerm term) fun id =>
      balanced_build_push (aloof_particle minOccurs maxOccurs id)
termination_by structural p => p

theorem balanced_placeTerm : ∀ term : Term, Balanced (placeTerm term) 1
  | .element decl => by
    rw [placeTerm]
    exact (balanced_meetElement decl).bind fun _ => balanced_build_push (aloof_elementTerm decl.name)
  | .wildcard wildcard => by
    rw [placeTerm]
    exact balanced_build_push (aloof_wildcardTerm wildcard)
  | .group compositor particles => by
    rw [placeTerm]
    exact balanced_popMany (balanced_placeParticles particles) fun ids =>
      balanced_build_push (aloof_group compositor ids)
termination_by structural term => term

theorem balanced_placeParticles : ∀ ps : List Particle, Balanced (placeParticles ps) ps.length
  | [] => by
    rw [placeParticles]
    exact .pure
  | p :: ps => by
    rw [placeParticles]
    exact (balanced_placeParticle p).bind fun _ => balanced_placeParticles ps
termination_by structural ps => ps

theorem balanced_meetElement : ∀ decl : ElementDecl, Balanced (meetElement decl) 0
  | ⟨name, substitutes, type⟩ => by
    rw [meetElement]
    have enter : Balanced (enterName name) 0 := .of_aloof (aloof_enterName name)
    have declare (ref : NameRef) (id : GrammarId) :
        Balanced (declareLocal ref id >>= fun _ => pure ()) 0 :=
      (Balanced.of_aloof (aloof_declareLocal ref id)).bind fun _ => .pure
    split
    · refine enter.bind fun ref => ?_
      cases type with
      | none => exact (Balanced.of_aloof aloof_anyTypeGrammar).bind fun id => declare ref id
      | some type =>
        refine .get_bind (fun _ _ => rfl) fun d => ?_
        split
        · exact balanced_putOff ref type
        · exact (balanced_typeGrammars type).bind fun pair => declare ref pair.grammar
    · exact .throw
termination_by structural decl => decl

end

theorem balanced_elementGrammar (decl : ElementDecl) : Balanced (elementGrammar decl) 0 := by
  unfold elementGrammar
  split
  · exact (balanced_typeGrammars _).bind fun pair => .of_aloof (aloof_forElement pair.grammar)
  · exact (Balanced.of_aloof aloof_anyTypeGrammar).bind fun id => .of_aloof (aloof_forElement id)

/-- A part that is left out leaves nothing on the stack either. -/
theorem balanced_orSkip {part : Part} {action : Drafting α} (inner : Balanced action 0) :
    Balanced (orSkip part action) 0 := by
  refine .of_turn (fun d => ?_) fun d stack => ?_
  · refine yields_orSkip_of (inner.yields d) ?_ fun _ _ bad _ => bad
    rintro f d' ⟨⟨left, stack⟩, active⟩ _ _
    refine ⟨⟨[], rfl, ?_⟩, active⟩
    rw [← stack, List.length_append, Nat.add_sub_cancel]
    exact List.drop_left
  · have same := inner.turn d stack
    have spec := inner.yields d
    unfold Yields at spec
    unfold orSkip
    rw [same]
    cases run : action d with
    | ok a d' => rfl
    | error f d' =>
      rw [run] at spec
      obtain ⟨⟨left, top⟩, _⟩ := spec
      have options : (d'.turn (.below stack)).options = d'.options := rfl
      have left_out : (d'.turn (.below stack)).stack.drop
          ((d'.turn (.below stack)).stack.length - (d.turn (.below stack)).stack.length) =
          d'.stack.drop (d'.stack.length - d.stack.length) ++ stack := by
        simp [turn, Turn.below, ← top]
      simp only [Turn.result, options, left_out]
      split <;> rfl

end Draft

open Draft

theorem Operation.balanced (op : Operation) : Balanced op.run 0 := by
  have outcome {α : Type} {action : Drafting α} {f : α → Outcome} (inner : Balanced action 0) :
      Balanced (action >>= fun a => Pure.pure (f a)) 0 := inner.bind fun _ => .pure
  cases op with
  | simpleContent builtIn => exact outcome (.of_aloof (aloof_simpleContent builtIn))
  | emptyContent => exact outcome (.of_aloof aloof_emptyContent)
  | attributeUse required name builtIn =>
    exact outcome (.of_aloof (aloof_attributeUse required name builtIn))
  | elementTerm name => exact outcome (.of_aloof (aloof_elementTerm name))
  | wildcardTerm wildcard => exact outcome (.of_aloof (aloof_wildcardTerm wildcard))
  | chain parts => exact outcome (.of_aloof (aloof_chain parts))
  | complexContent attributes wildcard content =>
    exact outcome (.of_aloof (aloof_complexContent attributes wildcard content))
  | complexEmpty attributes wildcard =>
    exact outcome (.of_aloof (aloof_complexEmpty attributes wildcard))
  | admitAttributes id wildcard =>
    exact outcome (.of_aloof ((aloof_admittedEvents wildcard).bind fun _ => aloof_admitEvents id _))
  | anyContent | anyAttributes => exact outcome (.of_aloof (aloof_insert _))
  | particle minOccurs maxOccurs term =>
    exact outcome (.of_aloof (aloof_particle minOccurs maxOccurs term))
  | sequence terms => exact outcome (.of_aloof (aloof_sequence terms))
  | choice terms => exact outcome (.of_aloof (aloof_group .choice terms))
  | all terms => exact outcome (.of_aloof (aloof_group .all terms))
  | mixed content => exact outcome (.of_aloof (aloof_mixed content))
  | forElement type => exact outcome (.of_aloof (aloof_forElement type))
  | declareLocal name type => exact outcome (.of_aloof (aloof_declareLocal name type))
  | declareGlobal name id =>
    exact outcome (f := fun _ => .done) (.of_aloof (aloof_declareGlobal name id))
  | declareType name grammars =>
    exact outcome (f := fun _ => .done) (.of_aloof (aloof_declareType name grammars))
  | typeGrammars type => exact outcome (balanced_typeGrammars type)
  | elementGrammar decl => exact outcome (balanced_elementGrammar decl)

namespace Operation

variable {d : Draft}

theorem after_turn (op : Operation) (d : Draft) (stack : List GrammarId) :
    op.outcome (d.turn (.below stack)) = op.outcome d ∧
      op.after (d.turn (.below stack)) = (op.after d).turn (.below stack) := by
  have same := op.balanced.turn d stack
  unfold outcome after
  rw [same]
  cases op.run d <;> exact ⟨rfl, rfl⟩

theorem afterAll_turn (ops : List Operation) (d : Draft) (stack : List GrammarId) :
    outcomes ops (d.turn (.below stack)) = outcomes ops d ∧
      afterAll ops (d.turn (.below stack)) = (afterAll ops d).turn (.below stack) := by
  induction ops generalizing d with
  | nil => exact ⟨rfl, rfl⟩
  | cons op ops ih =>
    obtain ⟨outcome, after⟩ := op.after_turn d stack
    obtain ⟨outcomes, afterAll⟩ := ih (op.after d)
    refine ⟨?_, ?_⟩
    · rw [Operation.outcomes, outcome, after, outcomes]
      rfl
    · rw [Operation.afterAll, List.foldl_cons, after]
      exact afterAll

end Operation

/-- A particle leaves one grammar on top of what was on the stack; a type and an element leave nothing,
and neither does any operation. Where they fail, what was on the stack is still there, below what is
left; and always the same types are being compiled as before. What was on the stack makes no
difference to what they give back, to the fault or to what they do to the draft, and so none to what
comes of a session that goes on after something has failed. -/
theorem Draft.stack_balanced :
    (∀ p, Balanced (placeParticle p) 1) ∧ (∀ t, Balanced (typeGrammars t) 0) ∧
    (∀ decl, Balanced (elementGrammar decl) 0) ∧ (∀ op : Operation, Balanced op.run 0) ∧
    (∀ part t, Balanced (orSkip part (typeGrammars t)) 0) ∧
    (∀ part decl, Balanced (orSkip part (elementGrammar decl)) 0) ∧
    ∀ ops (d : Draft) stack,
      Operation.outcomes ops { d with stack } = Operation.outcomes ops { d with stack := [] } ∧
      Operation.afterAll ops { d with stack } =
        (Operation.afterAll ops { d with stack := [] }).turn (.below stack) :=
  ⟨balanced_placeParticle, balanced_typeGrammars, balanced_elementGrammar, Operation.balanced,
    fun _ t => balanced_orSkip (balanced_typeGrammars t),
    fun _ decl => balanced_orSkip (balanced_elementGrammar decl),
    fun ops d stack => Operation.afterAll_turn ops { d with stack := [] } stack⟩

end ExiSchema
