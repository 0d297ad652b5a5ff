import ExiSchema.Proofs.Draft.Whole
import ExiSchema.Proofs.Draft.Settling
import ExiSchema.Schema.Tour

/-!
The walk over a type model against the tour of it. Where nothing is left out, the types that are
registered are those of the tour, every element that the tour meets is declared or put off, and the
names of these elements are the ones that grammars start.
-/

set_option autoImplicit false

namespace ExiSchema

namespace Tour

variable {t : Tour} {name : QName} {inside : List QName → Tour → Tour} {active : List QName}

theorem once_of_mem (met : name ∈ t.done) : t.once (some name) inside active = t := if_pos met

theorem once_of_new (new : name ∉ t.done) :
    t.once (some name) inside active =
      { inside (name :: active) t with done := (inside (name :: active) t).done ++ [name] } :=
  if_neg new

end Tour

namespace Draft

variable {d d' : Draft} {t : Tour} {begun begun' : List NameRef} {decl : ElementDecl} {ref : NameRef}

/-- A local element of this name has been declared or put off. -/
def Meets (d : Draft) (ref : NameRef) : Prop := d.HasLocal ref ∨ ∃ e ∈ d.pending, e.name = ref

/-- There is a local element for the declaration, with the type that it shares, or the declaration
has been put off. -/
def Serves (d : Draft) (decl : ElementDecl) : Prop :=
  ∃ ref, d.uris.find? decl.name = some ref ∧
    ((∃ l ∈ d.locals, l.name = ref ∧
        (decl.origin.shared = true → d.typeId? decl.origin = some l.type)) ∨
      ∃ e ∈ d.pending, e.name = ref ∧ decl.type = some e.type)

theorem Moves.typeId? {o : Origin} {id : GrammarId} (moves : d.Moves d')
    (here : d.typeId? o = some id) : d'.typeId? o = some id := by
  cases o with
  | anyType => exact moves.anyType here
  | named name =>
    obtain ⟨pair, found, rfl⟩ := Option.map_eq_some_iff.1 here
    exact Option.map_eq_some_iff.2 ⟨pair, moves.registered found, rfl⟩
  | inline _ => cases here

theorem Serves.move (serves : d.Serves decl) (moves : d.Moves d') : d'.Serves decl := by
  obtain ⟨ref, found, here⟩ := serves
  refine ⟨ref, moves.grows.uris.extends.find? found, here.imp ?_ ?_⟩
  · rintro ⟨l, mem, name, type⟩
    exact ⟨l, moves.declared mem, name, fun shared => moves.typeId? (type shared)⟩
  · rintro ⟨e, mem, here⟩
    exact ⟨e, moves.putOff mem, here⟩

/-- The draft has come as far as the tour. Elements that are `begun` have been met, and their names
are still to be started. -/
structure Follows (d : Draft) (t : Tour) (begun : List NameRef) : Prop where
  done : d.types.names = t.done
  served : ∀ decl ∈ t.met, d.Serves decl
  named : ∀ ref, d.Meets ref → ∃ decl ∈ t.met, d.uris.find? decl.name = some ref
  starts : ∀ ref, d.Starts ref ∨ ref ∈ begun ↔ d.Meets ref

theorem Follows.move (follows : d.Follows t begun) (moves : d.Moves d') (types : d'.types = d.types)
    (meets : ∀ ref, d'.Meets ref ↔ d.Meets ref)
    (starts : ∀ ref, d'.Starts ref ∨ ref ∈ begun' ↔ d.Starts ref ∨ ref ∈ begun) :
    d'.Follows t begun' := by
  refine ⟨types ▸ follows.done, fun decl mem => (follows.served decl mem).move moves,
    fun ref here => ?_, fun ref => ?_⟩
  · obtain ⟨decl, mem, found⟩ := follows.named ref ((meets ref).1 here)
    exact ⟨decl, mem, moves.grows.uris.extends.find? found⟩
  · rw [starts, follows.starts, meets]

/-- Nothing has come to those that are registered, declared, put off or started. -/
structure Still (d d' : Draft) : Prop where
  types : d'.types = d.types
  locals : d'.locals = d.locals
  pending : d'.pending = d.pending
  starts : ∀ ref, d'.Starts ref → d.Starts ref

theorem Still.meets (still : d.Still d') (ref : NameRef) : d'.Meets ref ↔ d.Meets ref := by
  rw [Meets, Meets, HasLocal, HasLocal, still.locals, still.pending]

theorem Follows.still (follows : d.Follows t begun) (moves : d.Moves d') (still : d.Still d') :
    d'.Follows t begun := by
  refine follows.move moves still.types still.meets fun ref => or_congr_left ?_
  exact ⟨still.starts ref, fun old => old.grow moves.grows⟩

theorem Adds.still (adds : d.Adds d') (borrows : ∀ ref, d'.Starts ref → d.Starts ref) :
    d.Still d' := by
  refine ⟨?_, ?_, ?_, borrows⟩ <;> rw [adds.frame] <;> rfl

/-- No type that is being compiled has been registered. -/
def Apart (d : Draft) : Prop := ∀ name ∈ d.active, d.types.find? name = none

theorem Advances.apart (advances : d.Advances d') (apart : d.Apart) : d'.Apart :=
  fun name mem => advances.waits.absent name (advances.waits.active ▸ mem)
    (apart name (advances.waits.active ▸ mem))

end Draft

open Draft

/-- Where the action succeeds, it comes as far as the tour that is changed by `f`. -/
def Tours {α : Type} (action : Drafting α) (d : Draft) (f : Tour → Tour) : Prop :=
  d.store.Sound → d.Apart → ∀ t, d.Follows t [] →
    Yields action d (fun _ d' => d.Advances d' ∧ d'.Follows (f t) []) fun _ _ => True

namespace Tours

variable {α β γ : Type} {d : Draft} {action : Drafting α} {next : α → Drafting β}
  {f f' : Tour → Tour}

theorem of_still (moving : Moving action d)
    (spec : d.store.Sound → Yields action d (fun _ d' => d.Still d') fun _ _ => True) :
    Tours action d id := by
  intro sound _ t follows
  refine ((moving sound).and (spec sound)).mono ?_ fun _ _ _ => trivial
  exact fun _ d' ⟨advances, still⟩ => ⟨advances, follows.still advances.moves still⟩

theorem of_adds (spec : d.store.Sound →
    Yields action d (fun _ d' => d.Adds d') fun _ d' => d.Adds d') (borrows : Borrows action d) :
    Tours action d id :=
  of_still (.of_adds spec) fun sound => ((spec sound).and borrows).mono
    (fun _ _ good => good.1.still good.2) fun _ _ _ => trivial

theorem of_makes {R : Draft → α → γ → Prop} {built : Naming → Except Fault γ}
    (spec : Makes action d R built) (borrows : Borrows action d) : Tours action d id :=
  of_adds spec.adds borrows

theorem pure {a : α} : Tours (pure a) d id := fun _ _ _ follows => ⟨.refl d, follows⟩

theorem bind (first : Tours action d f)
    (rest : ∀ a d', d.Advances d' → Tours (next a) d' f') :
    Tours (action >>= next) d fun t => f' (f t) := by
  intro sound apart t follows
  refine (first sound apart t follows).bind ?_
  rintro a d' ⟨advances, follows'⟩
  refine (rest a d' advances (advances.moves.grows.sound sound) (advances.apart apart) (f t)
    follows').mono ?_ fun _ _ _ => trivial
  exact fun b d'' ⟨more, follows''⟩ => ⟨advances.trans more, follows''⟩

theorem quiet_bind (first : Tours action d id)
    (rest : ∀ a d', d.Advances d' → Tours (next a) d' f) : Tours (action >>= next) d f :=
  first.bind rest

theorem bind_quiet (first : Tours action d f) (rest : ∀ a d', Tours (next a) d' id) :
    Tours (action >>= next) d f := first.bind fun a d' _ => rest a d'

end Tours

namespace Draft

variable {d d' : Draft} {t : Tour} {begun : List NameRef} {decl : ElementDecl} {ref : NameRef}

theorem tours_push (id : GrammarId) : Tours (push id) d fun t => t :=
  .of_still (moving_push id) fun _ => ⟨rfl, rfl, rfl, fun _ here => here⟩

theorem tours_of_stack {α : Type} {action : Drafting α}
    (spec : Yields action d (fun _ d' => ∃ stack, d' = { d with stack }) fun _ d' => d' = d) :
    Tours action d fun t => t := by
  refine .of_still (moving_of_stack spec) fun _ => spec.mono ?_ fun _ _ _ => trivial
  rintro _ _ ⟨_, rfl⟩
  exact ⟨rfl, rfl, rfl, fun _ here => here⟩

theorem tours_pop : Tours pop d id := tours_of_stack yields_pop

theorem tours_popMany (n : Nat) : Tours (popMany n) d id := tours_of_stack (yields_popMany n)

theorem tours_build_push {action : Drafting GrammarId} {built : Naming → Except Fault Grammar}
    (spec : Makes action d Holds built) (borrows : Borrows action d) :
    Tours (action >>= push) d id :=
  (Tours.of_makes spec borrows).quiet_bind fun id _ _ => tours_push id

theorem tours_anyTypeGrammar : Tours anyTypeGrammar d id := by
  refine .of_still moving_anyTypeGrammar fun sound => yields_get_bind ?_
  split
  · exact ⟨rfl, rfl, rfl, fun _ here => here⟩
  · refine ((makes_anyContent.adds sound).and borrows_anyContent).bind_ok ?_
    rintro id d₁ ⟨adds, borrows⟩
    have still := adds.still borrows
    exact ⟨still.types, still.locals, still.pending, still.starts⟩

theorem Follows.registered {name : QName} {pair : GrammarPair} (follows : d.Follows t [])
    (absent : d.types.find? name = none) (known : d.KnowsPair pair) :
    Follows { d with types := d.types.insert name pair } { t with done := t.done ++ [name] } [] := by
  have moves : d.Moves { d with types := d.types.insert name pair } :=
    (Move.declareType absent known).moves
  refine ⟨?_, fun decl mem => (follows.served decl mem).move moves, follows.named, follows.starts⟩
  exact (TypeRegistry.names_insert absent).trans (congrArg (· ++ [name]) follows.done)

theorem Follows.withActive (follows : d.Follows t begun) (active : List QName) :
    Follows { d with active } t begun :=
  ⟨follows.done, follows.served, follows.named, follows.starts⟩

/-- A type is gone through from inside it, and then it is registered. -/
theorem tours_registering {name : QName} {build : Drafting GrammarPair} {f : Tour → Tour}
    (absent : d.types.find? name = none) (idle : name ∉ d.active)
    (moving : Moving build { d with active := name :: d.active })
    (spec : Tours build { d with active := name :: d.active } f) :
    Tours (whileActive name build >>= fun pair => declareType name pair >>= fun _ => pure pair) d
      fun t => { f t with done := (f t).done ++ [name] } := by
  intro sound apart t follows
  have apart' : Apart { d with active := name :: d.active } :=
    List.forall_mem_cons.2 ⟨absent, apart⟩
  -- active names do not matter to how far a draft has come, so it does not matter where they end
  have inner : Yields (whileActive name build) d (fun _ d' => d'.Follows (f t) []) fun _ _ => True :=
    yields_whileActive_iff.2 ((spec sound apart' t (follows.withActive _)).mono
      (fun _ _ good => good.2.withActive _) fun _ _ _ => trivial)
  have whole : Yields (whileActive name build >>= fun pair => declareType name pair >>=
      fun _ => pure pair) d
      (fun _ d' => d'.Follows { f t with done := (f t).done ++ [name] } []) fun _ _ => True := by
    refine ((yields_whileActive absent moving sound).and inner).bind_ok ?_
    rintro pair d₁ ⟨⟨_, _, absent₁, _⟩, follows₁⟩
    refine (yields_declareType name pair).bind_ok ?_
    rintro _ _ ⟨known, rfl⟩
    exact follows₁.registered absent₁ known
  exact ((moving_registering absent idle moving sound).and whole).of_ok

theorem tours_onceFor {name : Option QName} {build : Drafting GrammarPair}
    (inside : List QName → Tour → Tour) (moving : ∀ d, Moving build d)
    (spec : ∀ d : Draft, Tours build d (inside d.active)) :
    Tours (onceFor name build) d fun t => t.once name inside d.active := by
  cases name with
  | none => exact spec d
  | some name =>
    intro sound apart t follows
    -- the registry and the tour agree on the names that are done with
    have listed : name ∈ t.done ↔ d.types.find? name ≠ none := by
      rw [Ne, TypeRegistry.find?_eq_none_iff, not_not, follows.done]
    beta_reduce
    refine yields_get_bind ?_
    split
    · next pair found =>
      rw [Tour.once_of_mem (listed.2 (found ▸ Option.some_ne_none pair))]
      exact ⟨.refl d, follows⟩
    next absent =>
    rw [Tour.once_of_new fun met => listed.1 met absent]
    split
    · exact yields_throw trivial
    · next busy =>
      have idle : name ∉ d.active := mt List.contains_iff_mem.2 busy
      exact tours_registering absent idle (moving _) (spec { d with active := name :: d.active })
        sound apart t follows

/-- What comes of meeting an element inside a type: there is a local element for it, or it has been
put off, and its name is still to be started. -/
structure Meeting (d d' : Draft) (decl : ElementDecl) (t : Tour) : Prop where
  advances : d.Advances d'
  follows : ∃ ref, d'.uris.find? decl.name = some ref ∧ d'.Follows (t.meet decl) [ref]

theorem Meeting.after {e : Draft} (meeting : d'.Meeting e decl t) (advances : d.Advances d') :
    d.Meeting e decl t := ⟨advances.trans meeting.advances, meeting.follows⟩

theorem Follows.meet (follows : d.Follows t []) (advances : d.Advances d')
    (types : d'.types = d.types) (starts : ∀ r, d'.Starts r ↔ d.Starts r)
    (meets : ∀ r, d'.Meets r ↔ d.Meets r ∨ r = ref) (found : d'.uris.find? decl.name = some ref)
    (serves : d'.Serves decl) : d.Meeting d' decl t := by
  have moves := advances.moves
  refine ⟨advances, ref, found, types ▸ follows.done, fun other mem => ?_, fun r here => ?_,
    fun r => ?_⟩
  · rcases List.mem_append.1 mem with old | new
    · exact (follows.served other old).move moves
    · exact List.mem_singleton.1 new ▸ serves
  · rcases (meets r).1 here with old | rfl
    · obtain ⟨other, mem, found⟩ := follows.named r old
      exact ⟨other, List.mem_append_left _ mem, moves.grows.uris.extends.find? found⟩
    · exact ⟨decl, List.mem_append_right _ (.head _), found⟩
  · have before := follows.starts r
    simp only [List.not_mem_nil, or_false] at before
    rw [List.mem_singleton, starts, before, meets]

theorem meeting_declareLocal (decl : ElementDecl) (type : GrammarId) (sound : d.store.Sound)
    (follows : d.Follows t []) (found : d.uris.find? decl.name = some ref)
    (shared : decl.origin.shared = true → d.typeId? decl.origin = some type) :
    Yields (declareLocal ref type) d (fun _ d' => d.Meeting d' decl t) fun _ _ => True := by
  refine ((moving_declareLocal ref type sound).and (yields_declareLocal_names ref type sound)).mono
    ?_ fun _ _ _ => trivial
  rintro id d' ⟨advances, ⟨types, pending⟩, starts, locals, l, mem, named, same⟩
  have found := advances.moves.grows.uris.extends.find? found
  refine follows.meet advances types starts (fun r => ?_) found ⟨ref, found, .inl ⟨l, mem, named, ?_⟩⟩
  · rw [Meets, locals, pending, Meets, or_right_comm]
  · exact fun shares => same ▸ advances.moves.typeId? (shared shares)

theorem meeting_putOff {type : TypeDef} (sound : d.store.Sound) (follows : d.Follows t [])
    (found : d.uris.find? decl.name = some ref) (typed : decl.type = some type)
    (active : d.isActive type = true) :
    d.Meeting { d with pending := d.pending ++ [⟨ref, type⟩] } decl t := by
  refine follows.meet (moving_putOff ref active sound) rfl (fun _ => Iff.rfl) (fun r => ?_) found
    ⟨ref, found, .inr ⟨⟨ref, type⟩, List.mem_append_right _ (.head _), rfl, typed⟩⟩
  simp only [Meets, HasLocal, List.mem_append, List.mem_singleton, or_and_right, exists_or,
    exists_eq_left, ← or_assoc, eq_comm]

/-- The grammar of a type that has a name is the one that elements of the type share. -/
theorem yields_typeGrammars_shared (type : TypeDef) : Yields (typeGrammars type) d
    (fun pair d' => type.origin.shared = true → d'.typeId? type.origin = some pair.grammar)
    fun _ _ => True := by
  unfold TypeDef.origin
  cases named : type.name? with
  | none => exact yields_iff.2 ⟨fun _ _ _ => nofun, fun _ _ _ => trivial⟩
  | some name =>
    refine (yields_typeGrammars_registered named).mono (fun pair d' found _ => ?_) fun _ _ _ => trivial
    exact Option.map_eq_some_iff.2 ⟨pair, found, rfl⟩

theorem yields_unless {α : Type} {allowed : Bool} {fault : Fault} {next : Unit → Drafting α}
    {ok : α → Draft → Prop} (rest : allowed = true → Yields (next ()) d ok fun _ _ => True) :
    Yields (if allowed = true then next () else throw fault >>= next) d ok fun _ _ => True := by
  split
  · exact rest ‹_›
  · exact trivial

theorem yields_enterName_found (name : QName) (sound : d.store.Sound) :
    Yields (enterName name) d (fun ref d' => d.Adds d' ∧ d.Still d' ∧ d'.uris.find? name = some ref)
      fun _ _ => True := by
  refine ((makes_enterName name sound).and (borrows_onTables _)).mono ?_ fun _ _ _ => trivial
  rintro ref d' ⟨⟨adds, _, ⟨_, found⟩, _⟩, borrows⟩
  exact ⟨adds, adds.still borrows, found⟩

/-- A term that is an element starts its name. -/
theorem Meeting.yields_elementTerm (meeting : d.Meeting d' decl t) (sound : d.store.Sound) :
    Yields (elementTerm decl.name) d' (fun _ d'' => d.Advances d'' ∧ d''.Follows (t.meet decl) [])
      fun _ _ => True := by
  obtain ⟨ref, found, follows⟩ := meeting.follows
  refine (((makes_elementTerm decl.name).adds (meeting.advances.moves.grows.sound sound)).and
    (yields_elementTerm_starts found)).mono ?_ fun _ _ _ => trivial
  rintro id d'' ⟨adds, starts⟩
  refine ⟨meeting.advances.trans adds.advances, follows.move adds.moves ?_ (fun r => ?_) fun r => ?_⟩
  · rw [adds.frame]
    rfl
  · rw [adds.frame]
    exact Iff.rfl
  · -- the term enters the row under which the element has been met
    rw [starts, List.mem_singleton, or_iff_left List.not_mem_nil]

mutual

theorem tours_typeGrammars : ∀ (type : TypeDef) (d : Draft),
    Tours (typeGrammars type) d (type.tour d.active)
  | .simple name variety builtIn, d => by
    rw [typeGrammars]
    have spec (d : Draft) : Tours (varietyGrammars builtIn variety) d fun t => t := by
      refine .of_makes (makes_varietyGrammars {} name variety builtIn) ?_
      cases variety with
      | list _ | union _ => exact .throw
      | atomic => exact (borrows_simpleContent builtIn).bind fun _ _ =>
          borrows_emptyContent.bind fun _ _ => .pure
    exact tours_onceFor (fun _ t => t)
      (fun d => .of_makes (makes_varietyGrammars {} name variety builtIn)) spec
  | .complex name attributes wildcard content, d => by
    rw [typeGrammars]
    refine tours_onceFor content.tour (fun d => ?_) fun d => ?_
    · have moving := moving_typeGrammars (.complex none attributes wildcard content) d
      rwa [typeGrammars] at moving
    · refine (Tours.of_makes (makes_attributesOf attributes) (borrows_attributesOf _)).quiet_bind
        fun uses d₁ advances => ?_
      rw [← advances.waits.active]
      refine (tours_contentGrammar content d₁).bind_quiet fun id d₂ => ?_
      refine (Tours.of_adds (adds_complexContent uses wildcard id)
        (borrows_complexContent uses wildcard)).bind_quiet fun _ d₃ => ?_
      refine Tours.bind_quiet ?_ fun _ _ => .pure
      exact (Tours.of_makes makes_emptyContent borrows_emptyContent).bind_quiet fun id d₄ =>
        .of_adds (adds_complexContent uses wildcard id) (borrows_complexContent uses wildcard)
termination_by structural type => type

theorem tours_contentGrammar : ∀ (c : Content) (d : Draft),
    Tours (contentGrammar c) d (c.tour d.active)
  | .empty, d => .of_makes makes_emptyContent borrows_emptyContent
  | .simple builtIn, d => .of_makes (makes_simpleContent builtIn) (borrows_simpleContent builtIn)
  | .elementOnly particle, d => by
    rw [contentGrammar]
    exact (tours_placeParticle particle d).bind_quiet fun _ _ => tours_pop
  | .mixed particle, d => by
    rw [contentGrammar]
    exact (tours_placeParticle particle d).bind_quiet fun _ _ => tours_pop.bind_quiet fun id _ =>
      .of_makes (makes_mixed id) borrows_mixed
termination_by structural c => c

theorem tours_placeParticle : ∀ (p : Particle) (d : Draft),
    Tours (placeParticle p) d (p.tour d.active)
  | ⟨minOccurs, maxOccurs, term⟩, d => by
    rw [placeParticle]
    exact (tours_placeTerm term d).bind_quiet fun _ _ => tours_pop.bind_quiet fun id _ =>
      tours_build_push (makes_particle minOccurs maxOccurs id) (borrows_particle minOccurs maxOccurs)
termination_by structural p => p

theorem tours_placeTerm : ∀ (term : Term) (d : Draft), Tours (placeTerm term) d (term.tour d.active)
  | .element decl, d => by
    rw [placeTerm]
    intro sound apart t follows
    refine (meeting_meetElement decl d sound apart t follows).bind fun _ d₁ meeting => ?_
    refine (meeting.yields_elementTerm sound).bind fun id d₂ ⟨advances, follows₂⟩ => ?_
    refine (tours_push id (advances.moves.grows.sound sound) (advances.apart apart) _ follows₂).mono
      ?_ fun _ _ _ => trivial
    exact fun _ d₃ ⟨more, follows₃⟩ => ⟨advances.trans more, follows₃⟩
  | .wildcard wildcard, d => by
    rw [placeTerm]
    exact tours_build_push (makes_wildcardTerm wildcard) (borrows_wildcardTerm wildcard)
  | .group compositor particles, d => by
    rw [placeTerm]
    exact (tours_placeParticles particles d).bind_quiet fun _ _ =>
      (tours_popMany _).bind_quiet fun ids _ =>
        tours_build_push (makes_group compositor ids) (borrows_group compositor ids)
termination_by structural term => term

theorem tours_placeParticles : ∀ (ps : List Particle) (d : Draft),
    Tours (placeParticles ps) d (tourOfAll ps d.active)
  | [], d => by
    rw [placeParticles]
    exact .pure
  | p :: ps, d => by
    rw [placeParticles]
    exact (tours_placeParticle p d).bind fun _ d₁ advances =>
      advances.waits.active ▸ tours_placeParticles ps d₁
termination_by structural ps => ps

theorem meeting_meetElement : ∀ (decl : ElementDecl) (d : Draft), d.store.Sound → d.Apart →
    ∀ t, d.Follows t [] → Yields (meetElement decl) d
      (fun _ d' => d.Meeting d' decl (decl.tour d.active t)) fun _ _ => True
  | ⟨name, substitutes, none⟩, d => by
    intro sound apart t follows
    rw [meetElement]
    refine yields_unless fun _ => ?_
    refine (yields_enterName_found name sound).bind fun ref d₁ ⟨adds, still, found⟩ => ?_
    have sound₁ := adds.grows.sound sound
    refine ((tours_anyTypeGrammar sound₁ (adds.advances.apart apart) t
      (follows.still adds.moves still)).and yields_anyTypeGrammar).bind_ok
        fun id d₂ ⟨⟨advances, follows₂⟩, known⟩ => ?_
    have met := advances.moves.grows.uris.extends.find? found
    exact (meeting_declareLocal ⟨name, substitutes, none⟩ id (advances.moves.grows.sound sound₁)
      follows₂ met fun _ => known).bind fun _ _ meeting =>
        yields_pure (meeting.after (adds.advances.trans advances))
  | ⟨name, substitutes, some type⟩, d => by
    intro sound apart t follows
    rw [meetElement]
    refine yields_unless fun _ => ?_
    refine (yields_enterName_found name sound).bind fun ref d₁ ⟨adds, still, found⟩ => ?_
    have sound₁ := adds.grows.sound sound
    have follows₁ := follows.still adds.moves still
    have active : d₁.active = d.active := adds.advances.waits.active
    refine yields_get_bind ?_
    split
    · next busy =>
      -- inside a type of its own type's name: the tour leads nowhere, and the walk puts it off
      have waits : ∃ name ∈ d.active, type.name? = some name := active ▸ isActive_iff.1 busy
      rw [ElementDecl.tour, if_pos waits]
      exact (meeting_putOff sound₁ follows₁ found rfl busy).after adds.advances
    · next idle =>
      have apart₁ : ¬∃ name ∈ d.active, type.name? = some name := active ▸ mt isActive_iff.2 idle
      rw [ElementDecl.tour, if_neg apart₁, ← active]
      refine ((tours_typeGrammars type d₁ sound₁ (adds.advances.apart apart) t follows₁).and
        (yields_typeGrammars_shared type)).bind_ok fun pair d₂ ⟨⟨advances, follows₂⟩, shared⟩ => ?_
      have met := advances.moves.grows.uris.extends.find? found
      exact (meeting_declareLocal ⟨name, substitutes, some type⟩ pair.grammar
        (advances.moves.grows.sound sound₁) follows₂ met shared).bind fun _ _ meeting =>
          yields_pure (meeting.after (adds.advances.trans advances))
termination_by structural decl => decl

end

theorem tours_orSkip {α : Type} {part : Part} {action : Drafting α} {f : Tour → Tour}
    (off : d.options.skipUnsupported = false) (moving : Moving action d) (spec : Tours action d f) :
    Tours (orSkip part action) d f := by
  intro sound apart t follows
  refine (yields_orSkip ((moving sound).and (spec sound apart t follows)) ?_).mono ?_
    fun _ _ _ => trivial
  · exact fun _ _ ⟨⟨moves, _⟩, _⟩ => moves.options ▸ off
  · exact fun _ _ ⟨_, _, _, good⟩ => good

theorem tours_elementGrammar (idle : d.active = []) :
    Tours (elementGrammar decl) d (decl.tour []) := by
  obtain ⟨name, substitutes, _ | type⟩ := decl
  · exact tours_anyTypeGrammar.quiet_bind fun id _ _ =>
      .of_makes (makes_forElement id) borrows_forElement
  · have inside : ¬∃ name ∈ d.active, type.name? = some name := by simp [idle]
    rw [← idle]
    simp only [ElementDecl.tour, if_neg inside]
    exact (tours_typeGrammars type d).bind_quiet fun pair _ =>
      .of_makes (makes_forElement pair.grammar) borrows_forElement

theorem tours_declareGlobal (name : QName) (id : GrammarId) :
    Tours (declareGlobal name id) d fun t => t :=
  .of_still (moving_declareGlobal name id) fun sound =>
    yields_grammar_bind (fun _ => trivial) fun _ _ =>
      (yields_enterName_found name sound).bind fun _ _ ⟨_, still, _⟩ =>
        ⟨still.types, still.locals, still.pending, still.starts⟩

theorem tours_addTypes (types : List TypeDef) : ∀ d : Draft, d.options.skipUnsupported = false →
    d.active = [] →
    Tours (addTypes types) d fun t => types.foldl (fun t type => type.tour [] t) t := by
  induction types with
  | nil => exact fun _ _ _ => .pure
  | cons type rest ih =>
    intro d off idle
    have first : Tours (orSkip (.type type.name?) (typeGrammars type)) d (type.tour []) := by
      rw [← idle]
      exact tours_orSkip off (moving_typeGrammars type d) (tours_typeGrammars type d)
    exact first.bind fun _ d' advances =>
      ih d' (advances.moves.options ▸ off) (advances.waits.active.trans idle)

theorem tours_addElement (off : d.options.skipUnsupported = false) (idle : d.active = []) :
    Tours (addElements [decl]) d (decl.tour []) := by
  refine (tours_orSkip off (moving_elementGrammar decl) (tours_elementGrammar idle)).bind_quiet
    fun id _ => ?_
  cases id with
  | none => exact .pure
  | some id => exact (tours_declareGlobal decl.name id).bind_quiet fun _ _ => .pure

theorem tours_addElements (decls : List ElementDecl) : ∀ d : Draft,
    d.options.skipUnsupported = false → d.active = [] →
    Tours (addElements decls) d fun t => decls.foldl (fun t decl => decl.tour [] t) t := by
  induction decls with
  | nil => exact fun _ _ _ => .pure
  | cons decl rest ih =>
    intro d off idle
    rw [addElements_cons]
    exact (tours_addElement off idle).bind fun _ d' advances =>
      ih d' (advances.moves.options ▸ off) (advances.waits.active.trans idle)

theorem follows_start (options : Options) : (start options).Follows {} [] := by
  have meets (ref : NameRef) : ¬(start options).Meets ref := by
    rintro (⟨l, mem, _⟩ | ⟨e, mem, _⟩)
    · exact Array.not_mem_empty l mem
    · exact List.not_mem_nil mem
  have starts (ref : NameRef) : ¬(start options).Starts ref := fun ⟨g, mem, _⟩ =>
    Array.not_mem_empty g mem
  refine ⟨rfl, fun _ mem => (nomatch mem), fun ref here => absurd here (meets ref), fun ref => ?_⟩
  rw [or_iff_left List.not_mem_nil]
  exact iff_of_false (starts ref) (meets ref)

/-- A model that is entered whole has been gone through as its tour goes. -/
theorem follows_of_entered {s : Schema} {options : Options} (off : options.skipUnsupported = false)
    (run : addSchema s (start options) = .ok () d) : d.Follows s.tour [] := by
  have whole : Tours (addSchema s) (start options) _ :=
    (tours_addTypes s.types (start options) off rfl).bind fun _ d' advances =>
      tours_addElements s.elements d' (advances.moves.options ▸ off) advances.waits.active
  have apart : (start options).Apart := fun _ mem => (nomatch mem)
  exact ((whole (sound_start options) apart {} (follows_start options)).ok_of_eq run).2

end Draft

end ExiSchema
