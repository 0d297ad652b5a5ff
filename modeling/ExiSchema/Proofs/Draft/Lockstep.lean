import ExiSchema.Compiled
import ExiSchema.Proofs.Draft.Aloof
import ExiSchema.Schema.Matching

/-!
Two compilations side by side, under options and of models that need not be the same. As long as the
models take the same attribute uses in the same order, the two drafts differ in their options and in
what they have put off, and in nothing else; so the compilations end alike, unless the first stops at
a part that the second leaves out.
-/

set_option autoImplicit false

namespace ExiSchema

/-- How two compilations may differ, and the faults at which the first may stop alone. -/
structure Twins where
  options : Options → Options → Prop
  uses : List AttributeUse → List AttributeUse → Prop
  stops : Fault → Prop
  ordered : ∀ {o o' : Options} {us us' : List AttributeUse}, options o o' → uses us us' →
    Draft.orderedUses o' us' = Draft.orderedUses o us
  skips : ∀ {o o' : Options}, options o o' → o'.skipUnsupported = o.skipUnsupported ∨
    o.skipUnsupported = false ∧ ∀ f : Fault, f.isNotImplemented = true → stops f

/-- Two runs have the same outcome and leave drafts that are related. -/
inductive SameOutcome {α : Type} (R : Draft → Draft → Prop) :
    EStateM.Result Fault Draft α → EStateM.Result Fault Draft α → Prop where
  | ok {a : α} {d d' : Draft} (left : R d d') : SameOutcome R (.ok a d) (.ok a d')
  | error {f : Fault} {d d' : Draft} (left : R d d') : SameOutcome R (.error f d) (.error f d')

namespace Twins

variable (T : Twins)

/-- The drafts of the two compilations at the same point. -/
structure Like (d d' : Draft) : Prop where
  same : d' = { d with options := d'.options, pending := d'.pending }
  options : T.options d.options d'.options
  pending : List.Forall₂ (fun e e' => e'.name = e.name ∧ e.type.Matches T.uses e'.type)
    d.pending d'.pending

/-- The action stops at a fault that the second compilation may have left out. -/
def StopsAt {α : Type} (action : Drafting α) (d : Draft) : Prop :=
  ∃ f e, action d = .error f e ∧ T.stops f ∧ e.options.skipUnsupported = false

/-- The action of the first compilation against that of the second, at their drafts. -/
def At {α : Type} (action action' : Drafting α) (d d' : Draft) : Prop :=
  T.StopsAt action d ∨ SameOutcome T.Like (action d) (action' d')

def Lockstep {α : Type} (action action' : Drafting α) : Prop :=
  ∀ d d', T.Like d d' → T.At action action' d d'

variable {T} {α β : Type} {action action' : Drafting α} {next next' : α → Drafting β} {d d' : Draft}

section

variable (like : T.Like d d')
include like

theorem Like.stack : d'.stack = d.stack := by rw [like.same]

theorem Like.active : d'.active = d.active := by rw [like.same]

theorem Like.types : d'.types = d.types := by rw [like.same]

theorem Like.skips : d'.skips = d.skips := by rw [like.same]

theorem Like.canonical : d'.canonical = d.canonical := by
  rw [like.same]
  rfl

/-- A change that has nothing to do with the differences. -/
theorem Like.map (f : Draft → Draft) (apart : ∀ (e : Draft) (options : Options)
    (pending : List PendingElement), f { e with options, pending } = { f e with options, pending }) :
    T.Like (f d) (f d') := by
  have here : f d = { f d with options := d.options, pending := d.pending } := apart d _ _
  have there : f d' = { f d with options := d'.options, pending := d'.pending } := by
    rw [like.same]
    exact apart d _ _
  refine ⟨by rw [there], ?_, ?_⟩
  · rw [here, there]
    exact like.options
  · rw [here, there]
    exact like.pending

theorem Like.withPending {waiting waiting' : List PendingElement}
    (pending : List.Forall₂ (fun e e' => e'.name = e.name ∧ e.type.Matches T.uses e'.type)
      waiting waiting') :
    T.Like { d with pending := waiting } { d' with pending := waiting' } := by
  refine ⟨?_, like.options, pending⟩
  rw [like.same]

end

namespace Lockstep

theorem of_aloof (aloof : Aloof action) : T.Lockstep action action := by
  intro d d' like
  let t : Turn := { options := fun _ => d'.options, pending := fun _ => d'.pending }
  have turned : d' = d.turn t := like.same
  have run : action d' = t.result (action d) := by rw [turned, aloof t d]
  have left {e : Draft} (kept : e.turn (.ofDraft d) = e) : T.Like e (e.turn t) := by
    refine ⟨rfl, ?_, ?_⟩
    · rw [← kept]
      exact like.options
    · rw [← kept]
      exact like.pending
  have kept := Draft.kept_of_aloof aloof d
  refine .inr ?_
  rw [run]
  cases ended : action d with
  | ok a e =>
    rw [ended] at kept
    exact .ok (left (EStateM.Result.ok.inj kept).2)
  | error f e =>
    rw [ended] at kept
    exact .error (left (EStateM.Result.error.inj kept).2)

theorem pure {a : α} : T.Lockstep (pure a) (pure a) := of_aloof .pure

theorem throw {fault : Fault} : T.Lockstep (throw fault : Drafting α) (throw fault) := of_aloof .throw

theorem bind (first : T.Lockstep action action') (rest : ∀ a, T.Lockstep (next a) (next' a)) :
    T.Lockstep (action >>= next) (action' >>= next') := by
  intro d d' like
  unfold At StopsAt
  simp only [Bind.bind, EStateM.bind]
  rcases first d d' like with ⟨f, e, run, stops⟩ | same
  · rw [run]
    exact .inl ⟨f, e, rfl, stops⟩
  · cases run : action d <;> cases run' : action' d' <;> rw [run, run'] at same <;> cases same
    · exact rest _ _ _ ‹_›
    · exact .inr (.error ‹_›)

theorem get_bind {next next' : Draft → Drafting α}
    (rest : ∀ d d', T.Like d d' → T.Lockstep (next d) (next' d')) :
    T.Lockstep (get >>= next) (get >>= next') := fun d d' like => rest d d' like d d' like

theorem modify {f f' : Draft → Draft} (kept : ∀ d d', T.Like d d' → T.Like (f d) (f' d')) :
    T.Lockstep (modify f) (modify f') := fun d d' like => .inr (.ok (kept d d' like))

theorem ite {c : Prop} [Decidable c] {other other' : Drafting α} (yes : T.Lockstep action action')
    (no : T.Lockstep other other') :
    T.Lockstep (if c then action else other) (if c then action' else other') := by
  split
  · exact yes
  · exact no

end Lockstep

end Twins

namespace Draft

open Twins

variable {T : Twins} {α : Type} {action action' : Drafting α}

theorem lockstep_push (id : GrammarId) : T.Lockstep (push id) (push id) := fun _ _ like =>
  .inr (.ok (like.map (fun d => { d with stack := id :: d.stack }) fun _ _ _ => rfl))

theorem lockstep_pop : T.Lockstep pop pop := by
  intro d d' like
  refine .inr ?_
  unfold pop
  rw [like.stack]
  cases d.stack with
  | nil => exact .error like
  | cons id stack => exact .ok (like.map (fun d => { d with stack }) fun _ _ _ => rfl)

theorem lockstep_popMany (n : Nat) : T.Lockstep (popMany n) (popMany n) := by
  intro d d' like
  refine .inr ?_
  unfold popMany
  rw [like.stack]
  by_cases enough : n ≤ d.stack.length
  · rw [if_pos enough, if_pos enough]
    exact .ok (like.map (fun e => { e with stack := d.stack.drop n }) fun _ _ _ => rfl)
  · rw [if_neg enough, if_neg enough]
    exact .error like

theorem lockstep_whileActive (name : QName) (spec : T.Lockstep action action') :
    T.Lockstep (whileActive name action) (whileActive name action') := by
  intro d d' like
  have back {e e' : Draft} (left : T.Like e e') :
      T.Like { e with active := e.active.tail } { e' with active := e'.active.tail } :=
    left.map (fun e => { e with active := e.active.tail }) fun _ _ _ => rfl
  have inner := spec _ _ (like.map (fun d => { d with active := name :: d.active }) fun _ _ _ => rfl)
  unfold At StopsAt whileActive
  rcases inner with ⟨f, e, run, stops⟩ | same
  · rw [run]
    exact .inl ⟨f, _, rfl, stops⟩
  · refine .inr ?_
    cases run : action { d with active := name :: d.active } <;>
      cases run' : action' { d' with active := name :: d'.active } <;> rw [run, run'] at same <;>
      cases same
    · exact .ok (back ‹_›)
    · exact .error (back ‹_›)

theorem lockstep_onceFor (name : Option QName) {build build' : Drafting GrammarPair}
    (spec : T.Lockstep build build') : T.Lockstep (onceFor name build) (onceFor name build') := by
  cases name with
  | none => exact spec
  | some name =>
    refine .get_bind fun d d' like => ?_
    rw [like.types, like.active]
    cases d.types.find? name with
    | some grammars => exact .pure
    | none =>
      refine .ite (.bind .throw fun _ => ?_) ?_
      all_goals exact (lockstep_whileActive name spec).bind fun grammars =>
        (Lockstep.of_aloof (aloof_declareType name grammars)).bind fun _ => .pure

theorem lockstep_attributesOf {uses uses' : List AttributeUse} (same : T.uses uses uses') :
    T.Lockstep (attributesOf uses) (attributesOf uses') := by
  refine .get_bind fun d d' like => ?_
  rw [T.ordered like.options same]
  exact .of_aloof (.mapM (fun (u : AttributeUse) => aloof_attributeUse u.required u.name u.builtIn) _)

theorem lockstep_putOff (name : NameRef) {type type' : TypeDef} (matching : type.Matches T.uses type') :
    T.Lockstep (putOff name type) (putOff name type') :=
  .modify fun _ _ like => like.withPending (List.rel_append like.pending (.cons ⟨rfl, matching⟩ .nil))

theorem name?_of_matches {U : List AttributeUse → List AttributeUse → Prop} {type type' : TypeDef}
    (matching : type.Matches U type') : type'.name? = type.name? := by
  cases matching <;> rfl

theorem name_of_matches {U : List AttributeUse → List AttributeUse → Prop} {e e' : ElementDecl}
    (matching : e.Matches U e') : e'.name = e.name := by
  cases matching <;> rfl

theorem isActive_of_like {d d' : Draft} (like : T.Like d d') {type type' : TypeDef}
    (matching : type.Matches T.uses type') : d'.isActive type' = d.isActive type := by
  unfold isActive
  rw [name?_of_matches matching, like.active]

theorem length_of_allMatch {U : List AttributeUse → List AttributeUse → Prop}
    {ps ps' : List Particle} : AllMatch U ps ps' → ps'.length = ps.length
  | .nil => rfl
  | .cons _ rest => congrArg Nat.succ (length_of_allMatch rest)

theorem lockstep_build_push {action : Drafting GrammarId} (aloof : Aloof action) :
    T.Lockstep (action >>= push) (action >>= push) := (Lockstep.of_aloof aloof).bind lockstep_push

-- By recursion on the model. The two sides branch alike, because names, bounds and what is being
-- compiled are the same; where they take attribute uses, the order makes these the same.
mutual

theorem lockstep_typeGrammars : ∀ (t t' : TypeDef), t.Matches T.uses t' →
    T.Lockstep (typeGrammars t) (typeGrammars t')
  | .simple name variety builtIn, _, .simple _ _ _ => by
    rw [typeGrammars]
    exact lockstep_onceFor name (.of_aloof (aloof_varietyGrammars builtIn variety))
  | .complex _ attributes _ content, _, .complex name wildcard uses inside => by
    rw [typeGrammars, typeGrammars]
    refine lockstep_onceFor name ((lockstep_attributesOf uses).bind fun ids => ?_)
    refine (lockstep_contentGrammar content _ inside).bind fun id => ?_
    exact .of_aloof ((aloof_complexContent ids wildcard id).bind fun _ =>
      (aloof_complexEmpty ids wildcard).bind fun _ => .pure)
termination_by structural t => t

theorem lockstep_contentGrammar : ∀ (c c' : Content), c.Matches T.uses c' →
    T.Lockstep (contentGrammar c) (contentGrammar c')
  | .empty, _, .empty => .of_aloof aloof_emptyContent
  | .simple _, _, .simple builtIn => .of_aloof (aloof_simpleContent builtIn)
  | .elementOnly p, _, .elementOnly particle => by
    rw [contentGrammar, contentGrammar]
    exact (lockstep_placeParticle p _ particle).bind fun _ => lockstep_pop
  | .mixed p, _, .mixed particle => by
    rw [contentGrammar, contentGrammar]
    exact (lockstep_placeParticle p _ particle).bind fun _ => lockstep_pop.bind fun id =>
      .of_aloof (aloof_mixed id)
termination_by structural c => c

theorem lockstep_placeParticle : ∀ (p p' : Particle), p.Matches T.uses p' →
    T.Lockstep (placeParticle p) (placeParticle p')
  | ⟨_, _, t⟩, _, .bounds minOccurs maxOccurs term => by
    rw [placeParticle, placeParticle]
    exact (lockstep_placeTerm t _ term).bind fun _ => lockstep_pop.bind fun id =>
      lockstep_build_push (aloof_particle minOccurs maxOccurs id)
termination_by structural p => p

theorem lockstep_placeTerm : ∀ (t t' : Term), t.Matches T.uses t' →
    T.Lockstep (placeTerm t) (placeTerm t')
  | .element e, .element e', .element decl => by
    rw [placeTerm, placeTerm, name_of_matches decl]
    exact (lockstep_meetElement e e' decl).bind fun _ => lockstep_build_push (aloof_elementTerm e.name)
  | .wildcard _, _, .wildcard wildcard => by
    rw [placeTerm]
    exact lockstep_build_push (aloof_wildcardTerm wildcard)
  | .group _ ps, .group _ ps', .group compositor particles => by
    rw [placeTerm, placeTerm, length_of_allMatch particles]
    exact (lockstep_placeParticles ps ps' particles).bind fun _ => (lockstep_popMany _).bind fun ids =>
      lockstep_build_push (aloof_group compositor ids)
termination_by structural t => t

theorem lockstep_placeParticles : ∀ (ps ps' : List Particle), AllMatch T.uses ps ps' →
    T.Lockstep (placeParticles ps) (placeParticles ps')
  | [], _, .nil => .pure
  | p :: ps, _, .cons first rest => by
    rw [placeParticles, placeParticles]
    exact (lockstep_placeParticle p _ first).bind fun _ => lockstep_placeParticles ps _ rest
termination_by structural ps => ps

theorem lockstep_meetElement : ∀ (e e' : ElementDecl), e.Matches T.uses e' →
    T.Lockstep (meetElement e) (meetElement e')
  | ⟨_, _, none⟩, _, .untyped name substitutes => by
    rw [meetElement]
    refine .ite ?_ (.bind .throw fun _ => ?_)
    all_goals exact .of_aloof ((aloof_enterName name).bind fun ref =>
      aloof_anyTypeGrammar.bind fun id => (aloof_declareLocal ref id).bind fun _ => .pure)
  | ⟨_, _, some t⟩, _, .typed name substitutes matching => by
    rw [meetElement, meetElement]
    refine .ite ?_ (.bind .throw fun _ => ?_)
    all_goals
      refine (Lockstep.of_aloof (aloof_enterName name)).bind fun ref => .get_bind fun d d' like => ?_
      rw [isActive_of_like like matching]
      refine .ite (lockstep_putOff ref matching) ?_
      exact (lockstep_typeGrammars t _ matching).bind fun pair =>
        .of_aloof ((aloof_declareLocal ref pair.grammar).bind fun _ => .pure)
termination_by structural e => e

end

theorem lockstep_elementGrammar {e e' : ElementDecl} (decl : e.Matches T.uses e') :
    T.Lockstep (elementGrammar e) (elementGrammar e') := by
  cases decl with
  | untyped name substitutes =>
    exact .of_aloof (aloof_anyTypeGrammar.bind fun id => aloof_forElement id)
  | typed name substitutes matching =>
    exact (lockstep_typeGrammars _ _ matching).bind fun pair => .of_aloof (aloof_forElement pair.grammar)

/-- What is left out by both is left out alike; where only the second may leave the part out, the
first stops. -/
theorem lockstep_orSkip {part : Part} (spec : T.Lockstep action action') :
    T.Lockstep (orSkip part action) (orSkip part action') := by
  intro d d' like
  unfold At StopsAt orSkip
  rcases spec d d' like with ⟨f, e, run, stops, off⟩ | same
  · refine .inl ⟨f, e, ?_, stops, off⟩
    rw [run]
    simp only [off, Bool.and_false, Bool.false_eq_true, if_false]
  · cases run : action d <;> cases run' : action' d' <;> rw [run, run'] at same <;> cases same
    · exact .inr (.ok ‹_›)
    · next f e e' left =>
      have skipped := left.map (fun e => { e with
        skips := e.skips.push ⟨part, f⟩
        stack := e.stack.drop (e.stack.length - d.stack.length) }) fun _ _ _ => rfl
      rcases T.skips left.options with both | ⟨off, stops⟩
      · dsimp only
        rw [both, like.stack]
        split
        · exact .inr (.ok skipped)
        · exact .inr (.error left)
      · dsimp only
        rw [off, Bool.and_false]
        cases unsupported : f.isNotImplemented with
        | true => exact .inl ⟨f, e, rfl, stops f unsupported, off⟩
        | false => exact .inr (.error left)

theorem lockstep_settle : ∀ (es es' : List PendingElement),
    List.Forall₂ (fun e e' => e'.name = e.name ∧ e.type.Matches T.uses e'.type) es es' →
    T.Lockstep (settle es) (settle es')
  | [], _, .nil => .pure
  | e :: es, e' :: es', .cons ⟨name, matching⟩ rest => by
    rw [settle, settle, name, name?_of_matches matching]
    refine (lockstep_orSkip ?_).bind fun _ => lockstep_settle es es' rest
    exact (lockstep_typeGrammars _ _ matching).bind fun pair =>
      .of_aloof (aloof_declareLocal e.name pair.grammar)

theorem lockstep_settlePending : T.Lockstep settlePending settlePending := fun d d' like =>
  lockstep_settle d.pending d'.pending like.pending _ _ (like.withPending .nil)

theorem lockstep_addTypes {ts ts' : List TypeDef}
    (matching : List.Forall₂ (TypeDef.Matches T.uses) ts ts') :
    T.Lockstep (addTypes ts) (addTypes ts') := by
  induction matching with
  | nil => exact .pure
  | @cons t t' ts ts' first _ ih =>
    rw [addTypes, addTypes, name?_of_matches first]
    exact (lockstep_orSkip (lockstep_typeGrammars t t' first)).bind fun _ => ih

theorem lockstep_addElements {es es' : List ElementDecl}
    (matching : List.Forall₂ (ElementDecl.Matches T.uses) es es') :
    T.Lockstep (addElements es) (addElements es') := by
  induction matching with
  | nil => exact .pure
  | @cons e e' es es' first _ ih =>
    rw [addElements, addElements, name_of_matches first]
    refine (lockstep_orSkip (lockstep_elementGrammar first)).bind fun id => ?_
    cases id with
    | none => exact ih
    | some id => exact (Lockstep.of_aloof (aloof_declareGlobal e.name id)).bind fun _ => ih

theorem lockstep_finish : T.Lockstep finish finish := by
  refine lockstep_settlePending.bind fun _ => .get_bind fun d d' like => ?_
  rw [like.stack, like.canonical]
  exact .of_aloof (.ite (fun _ => .ofExcept _) fun _ => .bind .throw fun _ => .ofExcept _)

end Draft

/-- Of two compilations in lockstep, the first stops where the second may go on, or they come to the
same. -/
theorem Twins.stops_or_compile_eq {T : Twins} {s s' : Schema} {o o' : Options}
    (options : T.options o o') (matching : s.Matches T.uses s') :
    (∃ f, s.compile o = .error f ∧ T.stops f) ∨ s'.compile o' = s.compile o := by
  have start : T.Like (Draft.start o) (Draft.start o') := ⟨rfl, options, .nil⟩
  have whole : T.Lockstep (Draft.addSchema s >>= fun _ => Draft.finish)
      (Draft.addSchema s' >>= fun _ => Draft.finish) :=
    ((Draft.lockstep_addTypes matching.types).bind fun _ =>
      Draft.lockstep_addElements matching.elements).bind fun _ => Draft.lockstep_finish
  unfold Schema.compile
  dsimp only
  rcases whole _ _ start with ⟨f, e, run, stops, _⟩ | same
  · rw [run]
    exact .inl ⟨f, rfl, stops⟩
  · refine .inr ?_
    cases run : (Draft.addSchema s >>= fun _ => Draft.finish) (Draft.start o) <;>
      cases run' : (Draft.addSchema s' >>= fun _ => Draft.finish) (Draft.start o') <;>
      rw [run, run'] at same <;> cases same
    · next left =>
      dsimp only
      rw [left.skips]
    · rfl

/-- Where the first does not stop alone, they come to the same. -/
theorem Twins.compile_eq {T : Twins} {s s' : Schema} {o o' : Options} (never : ∀ f, ¬T.stops f)
    (options : T.options o o') (matching : s.Matches T.uses s') : s'.compile o' = s.compile o :=
  (Twins.stops_or_compile_eq options matching).resolve_left fun ⟨f, _, stops⟩ => never f stops

end ExiSchema
