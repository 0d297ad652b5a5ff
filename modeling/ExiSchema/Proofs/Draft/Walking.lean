import ExiSchema.Proofs.Draft.Composing
import ExiSchema.Proofs.Draft.Framing
import ExiSchema.Proofs.Model.Accepted

/-!
The walk over a type model. Whatever comes of it, the store grows, the stack keeps what was on it,
and the names of types that are being compiled are the same as before; where it succeeds, particles
and contents have their grammars.
-/

set_option autoImplicit false

namespace ExiSchema

namespace Draft

structure Walked (d d' : Draft) : Prop where
  grows : d.store.Grows d'.store
  stack : d.stack <:+ d'.stack
  active : d'.active = d.active
  options : d'.options = d.options

theorem Walked.refl (d : Draft) : d.Walked d := ⟨.refl _, List.suffix_refl _, rfl, rfl⟩

theorem Walked.trans {d e f : Draft} (first : d.Walked e) (second : e.Walked f) : d.Walked f :=
  ⟨first.grows.trans second.grows, first.stack.trans second.stack,
    second.active.trans first.active, second.options.trans first.options⟩

theorem Adds.walked {d d' : Draft} (adds : d.Adds d') : d.Walked d' ∧ d'.stack = d.stack := by
  have stack : d'.stack = d.stack := by rw [adds.frame]; rfl
  refine ⟨⟨adds.grows, stack ▸ List.suffix_refl _, ?_, ?_⟩, stack⟩ <;> rw [adds.frame] <;> rfl

/-- The number of the grammar that is built with the rows of the tables. -/
def Bears (d : Draft) (id : GrammarId) (built : Naming → Except Fault Grammar) : Prop :=
  ∃ g, d.Holds id g ∧ ∀ ν, d.uris.Fits ν → built ν = .ok g

theorem Bears.grow {d d' : Draft} {id : GrammarId} {built : Naming → Except Fault Grammar}
    (bears : d.Bears id built) (grows : d.store.Grows d'.store) : d'.Bears id built := by
  obtain ⟨g, here, eq⟩ := bears
  exact ⟨g, grows.grammars here, fun ν fits => eq ν (fits.of_extends grows.uris.extends)⟩

theorem Bears.of_known {β : Type} {d d' : Draft} {id : GrammarId} {b : β}
    {built : Naming → Except Fault β} {more : β → Except Fault Grammar} (walked : d.Walked d')
    (known : ∀ ν, d.uris.Fits ν → built ν = .ok b) (bears : d'.Bears id fun _ => more b) :
    d'.Bears id fun ν => built ν >>= more := by
  obtain ⟨g, here, eq⟩ := bears
  refine ⟨g, here, fun ν fits => ?_⟩
  simp only [known ν (fits.of_extends walked.grows.uris.extends)]
  exact eq ν fits

end Draft

/-- The action only walks on, and its result is as `ok` says. -/
def Walks {α : Type} (action : Drafting α) (d : Draft) (ok : α → Draft → Prop) : Prop :=
  d.store.Sound →
    Yields action d (fun a d' => d.Walked d' ∧ ok a d') fun _ d' => d.Walked d'

namespace Walks

variable {α β γ : Type} {d : Draft} {action : Drafting α} {next : α → Drafting β}
  {M : α → Draft → Prop} {Q : β → Draft → Prop}

theorem of_makes {built : Naming → Except Fault γ} {R : Draft → α → γ → Prop}
    (spec : Makes action d R built) :
    Walks action d fun a d' => d'.stack = d.stack ∧
      ∃ c, R d' a c ∧ ∀ ν, d'.uris.Fits ν → built ν = .ok c := by
  refine fun sound => (spec sound).mono ?_ ?_
  · rintro a d' ⟨adds, built⟩
    exact ⟨adds.walked.1, adds.walked.2, built⟩
  · rintro f d' ⟨adds, _⟩
    exact adds.walked.1

theorem pure {b : β} (here : Q b d) : Walks (pure b) d Q := fun _ => ⟨.refl d, here⟩

theorem throw {fault : Fault} : Walks (throw fault) d Q := fun _ => .refl d

theorem modify {f : Draft → Draft} {Q : Unit → Draft → Prop} (walked : d.Walked (f d))
    (here : Q () (f d)) : Walks (modify f) d Q := fun _ => ⟨walked, here⟩

theorem mono {M' : α → Draft → Prop} (spec : Walks action d M)
    (weaker : ∀ a d', d.Walked d' → M a d' → M' a d') : Walks action d M' :=
  fun sound => (spec sound).mono_ok (fun a d' good => ⟨good.1, weaker a d' good.1 good.2⟩)

theorem bind (first : Walks action d M)
    (rest : ∀ a d', d.Walked d' → M a d' → Walks (next a) d' Q) :
    Walks (action >>= next) d Q := by
  refine fun sound => (first sound).bind ?_
  rintro a d' ⟨walked, here⟩
  refine (rest a d' walked here (walked.grows.sound sound)).mono ?_ fun _ _ more => walked.trans more
  exact fun b d'' good => ⟨walked.trans good.1, good.2⟩

/-- What an action has left on the stack is taken from there again. -/
theorem bind_take {take : Drafting γ} {next : γ → Drafting β} {M : γ → Draft → Prop}
    (first : Walks action d fun _ d' => ∃ c, take d' = .ok c { d' with stack := d.stack } ∧
      M c { d' with stack := d.stack })
    (rest : ∀ c d', d.Walked d' → d'.stack = d.stack → M c d' → Walks (next c) d' Q) :
    Walks (action >>= fun _ => take >>= next) d Q := by
  refine fun sound => (first sound).bind ?_
  rintro a d' ⟨walked, c, taken, here⟩
  have back : d.Walked { d' with stack := d.stack } :=
    ⟨walked.grows, List.suffix_refl _, walked.active, walked.options⟩
  have run : (take >>= next) d' = next c { d' with stack := d.stack } := by
    simp only [Bind.bind, EStateM.bind, taken]
  rw [Yields, run]
  refine (rest c _ back rfl here (walked.grows.sound sound)).mono ?_ fun _ _ more => back.trans more
  exact fun b d'' good => ⟨back.trans good.1, good.2⟩

theorem get_bind {next : Draft → Drafting β} (rest : Walks (next d) d Q) :
    Walks (get >>= next) d Q := rest

end Walks

namespace Draft

variable {d : Draft}

theorem walks_push (id : GrammarId) : Walks (push id) d fun _ d' =>
    d' = { d with stack := id :: d.stack } :=
  fun _ => ⟨⟨.refl _, List.suffix_cons _ _, rfl, rfl⟩, rfl⟩

/-- A grammar that is built and then put on the stack. -/
theorem walks_build_push {action : Drafting GrammarId} {built : Naming → Except Fault Grammar}
    (spec : Makes action d Holds built) :
    Walks (action >>= push) d fun _ d' => ∃ id, d'.stack = id :: d.stack ∧ d'.Bears id built := by
  refine (Walks.of_makes spec).bind fun id d' _ ⟨stack, bears⟩ => ?_
  refine (walks_push id).mono ?_
  rintro _ _ _ rfl
  exact ⟨id, by rw [stack], bears⟩

theorem grammar_bind_eq {β : Type} (d : Draft) (id : GrammarId) (next : Grammar → Drafting β) :
    (∃ g, d.Holds id g ∧ (grammar id >>= next) d = next g d) ∨
      ∃ f, (grammar id >>= next) d = .error f d := by
  simp only [bind, EStateM.bind, grammar_eq]
  cases known : d.read id with
  | ok g => exact .inl ⟨g, read_eq_ok_iff.1 known, rfl⟩
  | error f => exact .inr ⟨f, rfl⟩

/-- Looking up a grammar before going on. -/
theorem walks_grammar_bind {β : Type} {id : GrammarId} {next : Grammar → Drafting β}
    {ok : β → Draft → Prop} (rest : ∀ g, d.Holds id g → Walks (next g) d ok) :
    Walks (grammar id >>= next) d ok := by
  intro sound
  rcases grammar_bind_eq d id next with ⟨g, here, run⟩ | ⟨f, run⟩
  · rw [Yields, run]
    exact rest g here sound
  · rw [Yields, run]
    exact .refl d

theorem walks_declareType (name : QName) (grammars : GrammarPair) :
    Walks (declareType name grammars) d fun _ d' =>
      d' = { d with types := d.types.insert name grammars } :=
  walks_grammar_bind fun _ _ => walks_grammar_bind fun _ _ =>
    .modify ⟨.refl _, List.suffix_refl _, rfl, rfl⟩ rfl

theorem walks_whileActive {α : Type} {name : QName} {action : Drafting α}
    {Q : α → Draft → Prop}
    (spec : Walks action { d with active := name :: d.active } fun a d' =>
      Q a { d' with active := d'.active.tail }) :
    Walks (whileActive name action) d Q := by
  have back (d' : Draft) (walked : { d with active := name :: d.active }.Walked d') :
      d.Walked { d' with active := d'.active.tail } :=
    ⟨walked.grows, walked.stack, congrArg List.tail walked.active, walked.options⟩
  exact fun sound => yields_whileActive_iff.2 ((spec sound).mono
    (fun _ d' good => ⟨back d' good.1, good.2⟩) fun _ d' bad => back d' bad)

theorem walks_onceFor {build : Drafting GrammarPair} (name : Option QName)
    (spec : ∀ d, Walks build d fun _ d' => d'.stack = d.stack) :
    Walks (onceFor name build) d fun _ d' => d'.stack = d.stack := by
  cases name with
  | none => exact spec d
  | some name =>
    refine Walks.get_bind ?_
    split
    · exact .pure rfl
    split
    · exact .throw
    refine (walks_whileActive (Q := fun _ d' => d'.stack = d.stack) (spec _)).bind
      fun grammars d' _ stack => ?_
    refine (walks_declareType name grammars).bind fun _ d'' _ same => .pure ?_
    rw [same]
    exact stack

theorem walks_varietyGrammars (builtIn : String) (variety : Variety) :
    Walks (varietyGrammars builtIn variety) d fun _ d' => d'.stack = d.stack :=
  (Walks.of_makes (makes_varietyGrammars {} none variety builtIn)).mono fun _ _ _ here => here.1

theorem walks_anyTypeGrammar :
    Walks anyTypeGrammar d fun _ d' => d'.stack = d.stack := by
  refine Walks.get_bind ?_
  split
  · exact .pure rfl
  refine (Walks.of_makes makes_anyContent).bind fun id d' _ ⟨stack, _⟩ => ?_
  refine (Walks.modify (Q := fun _ d'' => d''.stack = d'.stack)
    ⟨.refl _, List.suffix_refl _, rfl, rfl⟩ rfl).bind fun _ d'' _ same => .pure (same.trans stack)

theorem walks_declareLocal (name : NameRef) (type : GrammarId) :
    Walks (declareLocal name type) d fun _ d' => d'.stack = d.stack := by
  refine Walks.get_bind ?_
  split
  · exact .pure rfl
  refine (Walks.of_makes (makes_forElement type)).bind fun id d' _ ⟨stack, _⟩ => ?_
  refine (Walks.modify (Q := fun _ d'' => d''.stack = d'.stack)
    ⟨.refl _, List.suffix_refl _, rfl, rfl⟩ rfl).bind fun _ d'' _ same => .pure (same.trans stack)

theorem walks_putOff (name : NameRef) (type : TypeDef) :
    Walks (putOff name type) d fun _ d' => d'.stack = d.stack :=
  .modify ⟨.refl _, List.suffix_refl _, rfl, rfl⟩ rfl

/-- The table has the names that a wildcard lists once their rows have been asked for. -/
theorem yields_namespaceRows_entered (uris : List String) :
    Yields (namespaceRows uris) d (fun _ d' => ∀ uri ∈ uris, ∃ row, d'.uris.lookup uri = some row)
      fun _ _ => True := by
  unfold namespaceRows
  split
  · exact yields_throw trivial
  · refine yields_mapM (fun (done : List String) (_ : List Nat) (d' : Draft) =>
      ∀ uri ∈ done, ∃ row, d'.uris.lookup uri = some row) uris (by simp)
      fun done uri rest rows d' _ here => ?_
    refine (yields_onTables (UriTable.yields_enterUri uri d'.uris)).mono ?_ fun _ _ _ => trivial
    rintro row d'' ⟨_, grows, found, _⟩ uri' mem
    rcases List.mem_append.1 mem with old | new
    · obtain ⟨row', found'⟩ := here uri' old
      exact ⟨row', grows.extends.lookup found'⟩
    · exact ⟨row, List.mem_singleton.1 new ▸ found⟩

theorem yields_insert_uris (g : Grammar) :
    Yields (insert g) d (fun _ d' => d'.uris = d.uris) fun _ _ => True := by
  unfold Yields insert
  by_cases room : d.grammars.size < grammarLimit <;> simp [room]

theorem walks_wildcardTerm (wildcard : Wildcard) :
    Walks (wildcardTerm wildcard >>= push) d fun _ d' => ∃ id, d'.stack = id :: d.stack ∧
      d'.Bears id (Term.grammar · (.wildcard wildcard)) ∧ wildcard.Entered d'.uris := by
  have entered : Yields (wildcardTerm wildcard >>= push) d
      (fun _ d' => wildcard.Entered d'.uris) fun _ _ => True := by
    cases wildcard with
    | any | except _ => exact yields_trivial
    | among uris =>
      refine Yields.bind (M := fun _ (d' : Draft) => ∀ uri ∈ uris, ∃ row, d'.uris.lookup uri = some row)
        ((yields_namespaceRows_entered uris).bind fun rows d' here => ?_) fun id d' here => here
      exact (yields_insert_uris _).mono_ok (fun _ _ same => same ▸ here)
  intro sound
  refine ((walks_build_push (makes_wildcardTerm wildcard) sound).and entered).mono ?_
    fun _ _ bad => bad.1
  rintro _ d' ⟨⟨walked, id, stack, bears⟩, here⟩
  exact ⟨walked, id, stack, bears, here⟩

theorem walks_unless {α : Type} {allowed : Bool} {fault : Fault} {next : Unit → Drafting α}
    {ok : α → Draft → Prop} (rest : allowed = true → Walks (next ()) d ok) :
    Walks (if allowed = true then next () else throw fault >>= next) d ok := by
  split
  · exact rest ‹_›
  · exact .throw

theorem pop_eq {d' : Draft} {id : GrammarId} {stack : List GrammarId}
    (top : d'.stack = id :: stack) : pop d' = .ok id { d' with stack } := by
  rw [pop, top]

theorem popMany_eq {d' : Draft} {ids stack : List GrammarId} (top : d'.stack = ids.reverse ++ stack) :
    popMany ids.length d' = .ok ids { d' with stack } := by
  have enough : ids.length ≤ d'.stack.length := by simp [top]
  rw [popMany, if_pos enough, top, List.take_left' (List.length_reverse), List.reverse_reverse,
    List.drop_left' (List.length_reverse)]

mutual

theorem walks_typeGrammars : ∀ (t : TypeDef) (d : Draft),
    Walks (typeGrammars t) d fun _ d' => d'.stack = d.stack
  | .simple name variety builtIn, d => by
    rw [typeGrammars]
    exact walks_onceFor name fun d => walks_varietyGrammars builtIn variety
  | .complex name attributes wildcard content, d => by
    rw [typeGrammars]
    refine walks_onceFor name fun d => ?_
    refine (Walks.of_makes (makes_attributesOf attributes)).bind
      fun uses d₁ _ ⟨stack₁, gs, usesHere, _⟩ => ?_
    refine (walks_contentGrammar content d₁).bind fun id d₂ walked ⟨stack₂, g, here, _⟩ => ?_
    have usesHere : d₂.HoldsAll uses gs := usesHere.imp fun _ _ h => walked.grows.grammars h
    exact (Walks.of_makes (makes_complexPair wildcard usesHere here)).mono
      fun _ _ _ ⟨stack₃, _⟩ => stack₃.trans (stack₂.trans stack₁)
termination_by structural t => t

theorem walks_contentGrammar : ∀ (c : Content) (d : Draft),
    Walks (contentGrammar c) d fun id d' => d'.stack = d.stack ∧ d'.Bears id (c.grammar ·)
  | .empty, d => Walks.of_makes makes_emptyContent
  | .simple builtIn, d => Walks.of_makes (makes_simpleContent builtIn)
  | .elementOnly particle, d => by
    rw [contentGrammar]
    have spec : Walks (placeParticle particle >>= fun _ => pop >>= pure) d fun id d' =>
        d'.stack = d.stack ∧ d'.Bears id (particle.grammar ·) :=
      .bind_take (M := fun id d' => d'.Bears id (particle.grammar ·))
        ((walks_placeParticle particle d).mono fun _ d' _ ⟨id, top, bears, _⟩ =>
          ⟨id, pop_eq top, bears⟩) fun id d' _ same bears => .pure ⟨same, bears⟩
    rwa [bind_pure] at spec
  | .mixed particle, d => by
    rw [contentGrammar]
    refine Walks.bind_take (M := fun id d' => d'.Bears id (particle.grammar ·))
      ((walks_placeParticle particle d).mono fun _ d' _ ⟨id, top, bears, _⟩ =>
        ⟨id, pop_eq top, bears⟩) fun id d' _ same ⟨g, here, built⟩ => ?_
    refine (Walks.of_makes ((makes_mixed id).of_holds here)).mono
      fun id' d'' walked ⟨stack, bears⟩ => ⟨stack.trans same, .of_known walked built bears⟩
termination_by structural c => c

theorem walks_placeParticle : ∀ (p : Particle) (d : Draft),
    Walks (placeParticle p) d fun _ d' => ∃ id, d'.stack = id :: d.stack ∧
      d'.Bears id (p.grammar ·) ∧ p.Entered d'.uris
  | ⟨minOccurs, maxOccurs, term⟩, d => by
    rw [placeParticle]
    refine Walks.bind_take (M := fun id d' => d'.Bears id (term.grammar ·) ∧ term.Entered d'.uris)
      ((walks_placeTerm term d).mono fun _ d' _ ⟨id, top, here⟩ => ⟨id, pop_eq top, here⟩)
      fun id d' _ same ⟨⟨g, here, built⟩, entered⟩ => ?_
    refine (walks_build_push ((makes_particle minOccurs maxOccurs id).of_holds here)).mono
      fun _ d'' walked ⟨id', stack, bears⟩ => ⟨id', by rw [stack, same],
        .of_known walked built bears, Term.entered_grow walked.grows.uris.extends term entered⟩
termination_by structural p => p

theorem walks_placeTerm : ∀ (term : Term) (d : Draft),
    Walks (placeTerm term) d fun _ d' => ∃ id, d'.stack = id :: d.stack ∧
      d'.Bears id (term.grammar ·) ∧ term.Entered d'.uris
  | .element decl, d => by
    rw [placeTerm]
    refine (walks_meetElement decl d).bind fun _ d₁ _ ⟨stack, alone, ref, found⟩ => ?_
    refine (walks_build_push (makes_elementTerm decl.name)).mono
      fun _ d₂ walked ⟨id, top, bears⟩ => ⟨id, by rw [top, stack], ?_, ref, ?_⟩
    · rw [← ElementDecl.check_eq alone] at bears
      exact bears
    · exact walked.grows.uris.extends.find? found
  | .wildcard wildcard, d => by
    rw [placeTerm]
    exact walks_wildcardTerm wildcard
  | .group compositor particles, d => by
    rw [placeTerm]
    refine Walks.bind_take (M := fun ids d' => AllEntered d'.uris particles ∧
        ∃ gs, d'.HoldsAll ids gs ∧ ∀ ν, d'.uris.Fits ν → grammarsOf ν particles = .ok gs)
      ((walks_placeParticles particles d).mono
        fun _ d' _ ⟨ids, top, length, here⟩ => ⟨ids, length ▸ popMany_eq top, here⟩)
      fun ids d' _ same ⟨entered, gs, here, built⟩ => ?_
    refine (walks_build_push ((makes_group compositor ids).of_holdsAll here)).mono
      fun _ d'' walked ⟨id, stack, bears⟩ => ⟨id, by rw [stack, same],
        .of_known walked built bears, allEntered_grow walked.grows.uris.extends particles entered⟩
termination_by structural term => term

theorem walks_placeParticles : ∀ (ps : List Particle) (d : Draft),
    Walks (placeParticles ps) d fun _ d' => ∃ ids, d'.stack = ids.reverse ++ d.stack ∧
      ids.length = ps.length ∧ AllEntered d'.uris ps ∧
        ∃ gs, d'.HoldsAll ids gs ∧ ∀ ν, d'.uris.Fits ν → grammarsOf ν ps = .ok gs
  | [], d => by
    rw [placeParticles]
    exact .pure ⟨[], rfl, rfl, trivial, [], .nil, fun _ _ => rfl⟩
  | p :: ps, d => by
    rw [placeParticles]
    refine (walks_placeParticle p d).bind fun _ d₁ _ ⟨id, top, ⟨g, here, built⟩, entered⟩ => ?_
    refine (walks_placeParticles ps d₁).mono
      fun _ d₂ walked ⟨ids, stack, length, allEntered, gs, all, eq⟩ => ?_
    refine ⟨id :: ids, ?_, congrArg (· + 1) length,
      ⟨Particle.entered_grow walked.grows.uris.extends p entered, allEntered⟩, g :: gs,
      .cons (walked.grows.grammars here) all, fun ν fits => ?_⟩
    · rw [stack, top, List.reverse_cons, List.append_assoc]
      rfl
    · have first : p.grammar ν = .ok g := built ν (fits.of_extends walked.grows.uris.extends)
      change (p.grammar ν >>= fun g => grammarsOf ν ps >>= fun gs => _) = _
      rw [first, eq ν fits]
      rfl
termination_by structural ps => ps

theorem walks_meetElement : ∀ (decl : ElementDecl) (d : Draft),
    Walks (meetElement decl) d fun _ d' => d'.stack = d.stack ∧
      decl.substitutes.isEmpty = true ∧ ∃ ref, d'.uris.find? decl.name = some ref
  | ⟨name, substitutes, none⟩, d => by
    rw [meetElement]
    refine walks_unless fun alone => ?_
    refine (Walks.of_makes (makes_enterName name)).bind
      fun ref d₁ _ ⟨stack₁, _, ⟨_, found⟩, _⟩ => ?_
    refine walks_anyTypeGrammar.bind fun id d₂ walked₂ stack₂ => ?_
    refine (walks_declareLocal ref id).bind fun _ d₃ walked₃ stack₃ => .pure ?_
    refine ⟨by rw [stack₃, stack₂, stack₁], alone, ref, ?_⟩
    exact (walked₂.trans walked₃).grows.uris.extends.find? found
  | ⟨name, substitutes, some type⟩, d => by
    rw [meetElement]
    refine walks_unless fun alone => ?_
    refine (Walks.of_makes (makes_enterName name)).bind
      fun ref d₁ _ ⟨stack₁, _, ⟨_, found⟩, _⟩ => Walks.get_bind ?_
    split
    · refine (walks_putOff ref type).mono fun _ d₂ walked stack₂ =>
        ⟨by rw [stack₂, stack₁], alone, ref, ?_⟩
      exact walked.grows.uris.extends.find? found
    · refine (walks_typeGrammars type d₁).bind fun grammars d₂ walked₂ stack₂ => ?_
      refine (walks_declareLocal ref grammars.grammar).bind fun _ d₃ walked₃ stack₃ => .pure ?_
      refine ⟨by rw [stack₃, stack₂, stack₁], alone, ref, ?_⟩
      exact (walked₂.trans walked₃).grows.uris.extends.find? found
termination_by structural decl => decl

end

end Draft

end ExiSchema
