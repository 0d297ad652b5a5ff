import ExiSchema.Draft.Sharing
import ExiSchema.Proofs.Draft.Moves
import ExiSchema.Proofs.Draft.Registered

/-!
The local elements of a draft are those that have been declared, each once and in the order of the first
declarations. What a walk declares is known from the model and the draft that it starts from; the
induction over the model shows that it adds that and nothing else, also where it fails.
-/

set_option autoImplicit false

namespace ExiSchema

/-- The name and the type under which a local element is shared. -/
def LocalElement.key (e : LocalElement) : NameRef × GrammarId := (e.name, e.type)

namespace Draft

variable {d d' e : Draft} {ms ms' : List LocalElement}

/-- An element that is declared again keeps its place. -/
def keepFirst (es : List LocalElement) (m : LocalElement) : List LocalElement :=
  if m ∈ es then es else es ++ [m]

theorem foldl_keepFirst (ms : List LocalElement) : ms.foldl keepFirst [] = ms.eraseDups := by
  induction ms using List.reverseRecOn with
  | nil => rfl
  | append_singleton ms m ih =>
    simp only [List.foldl_concat, ih, keepFirst, eraseDups_concat, List.mem_eraseDups]

theorem prefix_foldl_keepFirst (ms es : List LocalElement) : es <+: ms.foldl keepFirst es := by
  induction ms using List.reverseRecOn with
  | nil => exact List.prefix_refl es
  | append_singleton ms m ih =>
    rw [List.foldl_concat, keepFirst]
    split
    · exact ih
    · exact ih.trans (List.prefix_append _ _)

/-- On the way from one draft to the other these local elements are declared, in this order. -/
structure Collects (d : Draft) (ms : List LocalElement) (d' : Draft) : Prop where
  grows : d.store.Grows d'.store
  locals : d'.locals.toList = ms.foldl keepFirst d.locals.toList

theorem Collects.refl (d : Draft) : d.Collects [] d := ⟨.refl _, rfl⟩

theorem Collects.trans (first : d.Collects ms d') (second : d'.Collects ms' e) :
    d.Collects (ms ++ ms') e :=
  ⟨first.grows.trans second.grows, by rw [second.locals, first.locals, List.foldl_append]⟩

theorem Adds.collects (adds : d.Adds d') : d.Collects [] d' := by
  refine ⟨adds.grows, ?_⟩
  rw [adds.frame]
  rfl

end Draft

open Draft

/-- Whether it succeeds or fails, the action declares these local elements. -/
def Collecting {α : Type} (action : Drafting α) (d : Draft) (ms : List LocalElement) : Prop :=
  d.store.Sound → Yields action d (fun _ d' => d.Collects ms d') fun _ d' => d.Collects ms d'

namespace Collecting

variable {α β γ : Type} {d : Draft} {action : Drafting α} {next : α → Drafting β}
  {ms : List LocalElement} {rest : α → Draft → List LocalElement}

theorem pure {a : α} : Collecting (pure a) d [] := fun _ => .refl d

theorem throw {fault : Fault} : Collecting (throw fault : Drafting α) d [] := fun _ => .refl d

theorem get_bind {next : Draft → Drafting β} (here : Collecting (next d) d ms) :
    Collecting (get >>= next) d ms := here

theorem of_adds (spec : d.store.Sound →
    Yields action d (fun _ d' => d.Adds d') fun _ d' => d.Adds d') : Collecting action d [] :=
  fun sound => (spec sound).mono (fun _ _ adds => adds.collects) fun _ _ adds => adds.collects

theorem of_makes {R : Draft → α → γ → Prop} {built : Naming → Except Fault γ}
    (spec : Makes action d R built) : Collecting action d [] := of_adds spec.adds

theorem modify {f : Draft → Draft} (store : (f d).store = d.store) (locals : (f d).locals = d.locals) :
    Collecting (modify f) d [] :=
  fun _ => ⟨store ▸ .refl _, congrArg Array.toList locals⟩

theorem bind (first : Collecting action d ms) (later : ∀ a d', Collecting (next a) d' (rest a d')) :
    Collecting (action >>= next) d (ms ++ onOk (action d) rest) := by
  intro sound
  have spec := first sound
  refine yields_bind_iff.2 ?_
  unfold Yields at spec ⊢
  cases run : action d with
  | ok a d' =>
    rw [run] at spec
    exact (later a d' (spec.grows.sound sound)).mono (fun _ _ more => spec.trans more)
      fun _ _ more => spec.trans more
  | error f d' =>
    rw [run] at spec
    simp only [onOk, List.append_nil]
    exact spec

theorem quiet_bind (first : Collecting action d [])
    (later : ∀ a d', Collecting (next a) d' (rest a d')) :
    Collecting (action >>= next) d (onOk (action d) rest) := first.bind later

theorem bind_quiet (first : Collecting action d ms) (later : ∀ a d', Collecting (next a) d' []) :
    Collecting (action >>= next) d ms := by
  have nothing : onOk (action d) (fun _ _ => []) = [] := by
    cases action d <;> rfl
  have both := first.bind later
  rwa [nothing, List.append_nil] at both

theorem guarded {allowed : Bool} {fault : Fault} {next : Unit → Drafting α}
    (rest : Collecting (next ()) d ms) :
    Collecting (if allowed = true then next () else MonadExcept.throw fault >>= next) d
      (if allowed = true then ms else []) := by
  split
  · exact rest
  · exact .throw

end Collecting

namespace Draft

variable {α : Type} {d : Draft} {ms : List LocalElement}

theorem collecting_push (id : GrammarId) : Collecting (push id) d [] := fun _ => ⟨.refl _, rfl⟩

theorem collecting_of_stack {action : Drafting α}
    (spec : Yields action d (fun _ d' => ∃ stack, d' = { d with stack }) fun _ d' => d' = d) :
    Collecting action d [] := by
  refine fun _ => spec.mono ?_ ?_
  · rintro _ _ ⟨_, rfl⟩
    exact ⟨.refl _, rfl⟩
  · rintro _ _ rfl
    exact .refl _

theorem collecting_pop : Collecting pop d [] := collecting_of_stack yields_pop

theorem collecting_build_push {γ : Type} {action : Drafting GrammarId}
    {R : Draft → GrammarId → γ → Prop} {built : Naming → Except Fault γ}
    (spec : Makes action d R built) : Collecting (action >>= push) d [] :=
  (Collecting.of_makes spec).bind_quiet fun id _ => collecting_push id

/-- An element that is there is given back as it is. -/
theorem declareLocal_of_found {name : NameRef} {type id : GrammarId}
    (found : d.localGrammar? name type = some id) : declareLocal name type d = .ok id d := by
  simp only [declareLocal, bind, EStateM.bind, get, getThe, MonadStateOf.get, EStateM.get, found]
  rfl

/-- An element that is not there is added, with a new grammar. -/
theorem declareLocal_of_absent {name : NameRef} {type : GrammarId}
    (absent : d.localGrammar? name type = none) :
    declareLocal name type d = (forElement type >>= fun id =>
      modify (fun d => { d with locals := d.locals.push ⟨name, type, id⟩ }) >>= fun _ =>
      pure id : Drafting GrammarId) d := by
  simp only [declareLocal, bind, EStateM.bind, get, getThe, MonadStateOf.get, EStateM.get, absent]

theorem collecting_declareLocal (name : NameRef) (type : GrammarId) :
    Collecting (declareLocal name type) d (d.ownLocal name type) := by
  intro sound
  unfold Yields ownLocal
  cases found : d.localGrammar? name type with
  | some id =>
    rw [declareLocal_of_found found]
    obtain ⟨l, mem, rfl, rfl, rfl⟩ := exists_of_localGrammar? found
    refine ⟨.refl _, ?_⟩
    rw [onOk, List.foldl_cons, List.foldl_nil, keepFirst, if_pos (Array.mem_toList_iff.2 mem)]
  | none =>
    have spec : Yields (declareLocal name type) d
        (fun id d' => d.store.Grows d'.store ∧ d'.locals = d.locals.push ⟨name, type, id⟩)
        fun _ d' => d.Adds d' := by
      rw [Yields, declareLocal_of_absent found]
      refine ((makes_forElement type).adds sound).bind ?_
      intro id d₁ adds
      exact ⟨adds.grows, by rw [adds.frame]; rfl⟩
    unfold Yields at spec
    cases run : declareLocal name type d with
    | ok id d' =>
      rw [run] at spec
      obtain ⟨grows, locals⟩ := spec
      have new : (⟨name, type, id⟩ : LocalElement) ∉ d.locals.toList :=
        fun mem => localGrammar?_eq_none_iff.1 found _ mem ⟨rfl, rfl⟩
      refine ⟨grows, ?_⟩
      rw [onOk, List.foldl_cons, List.foldl_nil, keepFirst, if_neg new, locals, Array.toList_push]
    | error f d' =>
      rw [run] at spec
      exact spec.collects

theorem collecting_whileActive {name : QName} {action : Drafting α}
    (inner : Collecting action { d with active := name :: d.active } ms) :
    Collecting (whileActive name action) d ms := by
  exact fun sound => yields_whileActive_iff.2 ((inner sound).mono
    (fun _ _ more => ⟨more.grows, more.locals⟩) fun _ _ more => ⟨more.grows, more.locals⟩)

theorem collecting_declareType (name : QName) (pair : GrammarPair) :
    Collecting (declareType name pair) d [] := by
  refine fun _ => (yields_declareType name pair).mono ?_ ?_
  · rintro _ _ ⟨_, rfl⟩
    exact ⟨.refl _, rfl⟩
  · rintro _ _ rfl
    exact .refl _

theorem collecting_onceFor {name : Option QName} {build : Drafting GrammarPair}
    {made : Draft → List LocalElement} (inner : ∀ d, Collecting build d (made d)) :
    Collecting (onceFor name build) d (onceLocals name made d) := by
  cases name with
  | none => exact inner d
  | some name =>
    refine .get_bind ?_
    unfold onceLocals
    dsimp only
    cases d.types.find? name with
    | some pair => exact .pure
    | none =>
      by_cases busy : d.active.contains name = true
      · simp only [busy, if_true]
        exact .throw
      simp only [busy, if_false, Bool.false_eq_true]
      refine (collecting_whileActive (inner _)).bind_quiet fun pair _ => ?_
      exact (collecting_declareType name pair).bind_quiet fun _ _ => .pure

theorem onceLocals_none (name : Option QName) (d : Draft) : onceLocals name (fun _ => []) d = [] := by
  unfold onceLocals
  repeat' split
  all_goals rfl

theorem collecting_anyTypeGrammar : Collecting anyTypeGrammar d [] := by
  refine .get_bind ?_
  split
  · exact .pure
  · refine (Collecting.of_makes makes_anyContent).bind_quiet fun id _ => ?_
    exact (Collecting.modify rfl rfl).bind_quiet fun _ _ => .pure

mutual

theorem collecting_typeGrammars : ∀ (t : TypeDef) (d : Draft),
    Collecting (typeGrammars t) d (typeLocals t d)
  | .simple name variety builtIn, d => by
    rw [typeGrammars, typeLocals, ← onceLocals_none name d]
    exact collecting_onceFor fun d => .of_makes (makes_varietyGrammars {} name variety builtIn)
  | .complex name attributes wildcard content, d => by
    rw [typeGrammars, typeLocals]
    refine collecting_onceFor fun d => ?_
    refine (Collecting.of_makes (makes_attributesOf attributes)).quiet_bind fun uses d₁ => ?_
    refine (collecting_contentGrammar content d₁).bind_quiet fun id d₂ => ?_
    refine (Collecting.of_adds (adds_complexContent uses wildcard id)).bind_quiet fun _ d₃ => ?_
    exact (Collecting.of_adds (adds_complexEmpty uses wildcard)).bind_quiet fun _ _ => .pure
termination_by structural t => t

theorem collecting_contentGrammar : ∀ (c : Content) (d : Draft),
    Collecting (contentGrammar c) d (contentLocals c d)
  | .empty, d => .of_makes makes_emptyContent
  | .simple builtIn, d => .of_makes (makes_simpleContent builtIn)
  | .elementOnly particle, d => by
    rw [contentGrammar, contentLocals]
    exact (collecting_placeParticle particle d).bind_quiet fun _ _ => collecting_pop
  | .mixed particle, d => by
    rw [contentGrammar, contentLocals]
    refine (collecting_placeParticle particle d).bind_quiet fun _ _ => ?_
    exact collecting_pop.bind_quiet fun id _ => .of_makes (makes_mixed id)
termination_by structural c => c

theorem collecting_placeParticle : ∀ (p : Particle) (d : Draft),
    Collecting (placeParticle p) d (particleLocals p d)
  | ⟨minOccurs, maxOccurs, term⟩, d => by
    rw [placeParticle, particleLocals]
    refine (collecting_placeTerm term d).bind_quiet fun _ _ => ?_
    exact collecting_pop.bind_quiet fun id _ =>
      collecting_build_push (makes_particle minOccurs maxOccurs id)
termination_by structural p => p

theorem collecting_placeTerm : ∀ (term : Term) (d : Draft),
    Collecting (placeTerm term) d (termLocals term d)
  | .element decl, d => by
    rw [placeTerm, termLocals]
    exact (collecting_meetElement decl d).bind_quiet fun _ _ =>
      collecting_build_push (makes_elementTerm decl.name)
  | .wildcard wildcard, d => by
    rw [placeTerm, termLocals]
    exact collecting_build_push (makes_wildcardTerm wildcard)
  | .group compositor particles, d => by
    rw [placeTerm, termLocals]
    refine (collecting_placeParticles particles d).bind_quiet fun _ _ => ?_
    exact (collecting_of_stack (yields_popMany _)).bind_quiet fun ids _ =>
      collecting_build_push (makes_group compositor ids)
termination_by structural term => term

theorem collecting_placeParticles : ∀ (ps : List Particle) (d : Draft),
    Collecting (placeParticles ps) d (particlesLocals ps d)
  | [], d => by
    rw [placeParticles, particlesLocals]
    exact .pure
  | p :: ps, d => by
    rw [placeParticles, particlesLocals]
    exact (collecting_placeParticle p d).bind fun _ d' => collecting_placeParticles ps d'
termination_by structural ps => ps

theorem collecting_meetElement : ∀ (decl : ElementDecl) (d : Draft),
    Collecting (meetElement decl) d (elementLocals decl d)
  | ⟨name, substitutes, none⟩, d => by
    rw [meetElement, elementLocals]
    refine .guarded ((Collecting.of_makes (makes_enterName name)).quiet_bind fun ref d₁ => ?_)
    refine collecting_anyTypeGrammar.quiet_bind fun id d₂ => ?_
    exact (collecting_declareLocal ref id).bind_quiet fun _ _ => .pure
  | ⟨name, substitutes, some type⟩, d => by
    rw [meetElement, elementLocals]
    refine .guarded ((Collecting.of_makes (makes_enterName name)).quiet_bind fun ref d₁ => ?_)
    refine .get_bind ?_
    dsimp only
    by_cases active : d₁.isActive type = true
    · simp only [active, if_true]
      exact .modify (f := fun d => { d with pending := d.pending ++ [⟨ref, type⟩] }) rfl rfl
    · simp only [active, if_false, Bool.false_eq_true]
      refine (collecting_typeGrammars type d₁).bind fun pair d₂ => ?_
      exact (collecting_declareLocal ref pair.grammar).bind_quiet fun _ _ => .pure
termination_by structural decl => decl

end

theorem collecting_elementGrammar (decl : ElementDecl) (d : Draft) :
    Collecting (elementGrammar decl) d (globalLocals decl d) := by
  have copies (id : GrammarId) (d' : Draft) : Collecting (forElement id) d' [] :=
    .of_makes (makes_forElement id)
  unfold elementGrammar globalLocals
  cases decl.type with
  | some type => exact (collecting_typeGrammars type d).bind_quiet fun pair d' => copies pair.grammar d'
  | none => exact collecting_anyTypeGrammar.bind_quiet fun id d' => copies id d'

/-- A part that is left out has still declared the local elements that it came to. -/
theorem collecting_orSkip {part : Part} {action : Drafting α} (spec : Collecting action d ms) :
    Collecting (orSkip part action) d ms := by
  exact fun sound => yields_orSkip_of (spec sound) (fun _ _ more _ _ => ⟨more.grows, more.locals⟩)
    fun _ _ more _ => more

theorem collecting_settle (pending : List PendingElement) :
    ∀ d, Collecting (settle pending) d (settledLocals pending d) := by
  induction pending with
  | nil => exact fun _ => .pure
  | cons e rest ih =>
    intro d
    refine (collecting_orSkip ?_).bind fun _ d' => ih d'
    exact (collecting_typeGrammars e.type d).bind fun pair d' =>
      collecting_declareLocal e.name pair.grammar

theorem collecting_addTypes (types : List TypeDef) :
    ∀ d, Collecting (addTypes types) d (typesLocals types d) := by
  induction types with
  | nil => exact fun _ => .pure
  | cons t rest ih =>
    exact fun d => (collecting_orSkip (collecting_typeGrammars t d)).bind fun _ d' => ih d'

theorem collecting_declareGlobal (name : QName) (id : GrammarId) :
    Collecting (declareGlobal name id) d [] := by
  refine fun sound => yields_grammar_bind (fun _ => .refl d) fun g _ => ?_
  have enter : Collecting (enterName name) d [] := .of_makes (makes_enterName name)
  exact (enter.bind_quiet fun ref d' =>
    .modify (f := fun d => { d with globals := d.globals.push ⟨ref, id⟩ }) rfl rfl) sound

theorem collecting_addElements (decls : List ElementDecl) :
    ∀ d, Collecting (addElements decls) d (globalsLocals decls d) := by
  induction decls with
  | nil => exact fun _ => .pure
  | cons decl rest ih =>
    intro d
    refine (collecting_orSkip (collecting_elementGrammar decl d)).bind fun id d' => ?_
    cases id with
    | none => exact ih d'
    | some id => exact (collecting_declareGlobal decl.name id).quiet_bind fun _ d'' => ih d''

theorem collecting_addSchema (s : Schema) (d : Draft) :
    Collecting (addSchema s) d (schemaLocals s d) :=
  (collecting_addTypes s.types d).bind fun _ d' => collecting_addElements s.elements d'

end Draft

theorem Operation.collecting (op : Operation) (d : Draft) : Collecting op.run d (op.locals d) := by
  have outcome {α β : Type} {action : Drafting α} {ms : List LocalElement} (f : α → β)
      (spec : Collecting action d ms) : Collecting (action >>= fun a => Pure.pure (f a)) d ms :=
    spec.bind_quiet fun _ _ => .pure
  cases op with
  | declareLocal name type => exact outcome _ (collecting_declareLocal name type)
  | declareGlobal name id => exact outcome _ (collecting_declareGlobal name id)
  | declareType name grammars => exact outcome _ (collecting_declareType name grammars)
  | typeGrammars type => exact outcome _ (collecting_typeGrammars type d)
  | elementGrammar decl => exact outcome _ (collecting_elementGrammar decl d)
  | _ => exact .of_adds (adds _ rfl)

/-- Whatever comes of an operation, it has added what it declared. -/
theorem Operation.collects (op : Operation) {d : Draft} (sound : d.store.Sound) :
    d.Collects (op.locals d) (op.after d) :=
  after_of_yields (op.collecting d sound)

theorem Operation.collects_all (ops : List Operation) :
    ∀ {d : Draft}, d.store.Sound → d.Collects (allLocals ops d) (afterAll ops d) := by
  induction ops with
  | nil => exact fun {d} _ => .refl d
  | cons op ops ih =>
    intro d sound
    have first := op.collects sound
    exact first.trans (ih (first.grows.sound sound))

end ExiSchema
