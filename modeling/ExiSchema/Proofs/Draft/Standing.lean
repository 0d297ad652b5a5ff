import ExiSchema.Proofs.Draft.Resting
import ExiSchema.Proofs.Draft.Whole
import ExiSchema.Proofs.Schema.Scoped

/-!
A type model in which types with names are used after their declaration, entered into a draft from
which nothing may be left out. Of a name that is declared several times the first definition is
built, and every element whose type has the name gets the grammar of that one.
-/

set_option autoImplicit false

namespace ExiSchema

/-- The same type without a name. -/
def TypeDef.inline : TypeDef → TypeDef
  | .simple _ variety builtIn => .simple none variety builtIn
  | .complex _ attributes wildcard content => .complex none attributes wildcard content

theorem TypeDef.inline_eq {t : TypeDef} (unnamed : t.name? = none) : t.inline = t := by
  cases t <;> cases unnamed <;> rfl

theorem TypeDef.name?_inline (t : TypeDef) : t.inline.name? = none := by
  cases t <;> rfl

theorem TypeDef.types_inline (t : TypeDef) : t.inline.types = t.inline :: typesOf t.elements := by
  cases t <;> rfl

theorem Walks.bind_built {α β γ δ : Type} {d : Draft} {action : Drafting α} {next : α → Drafting γ}
    {R : Draft → α → β → Prop} {S : Draft → γ → δ → Prop} {built : Naming → Except Fault β}
    {m : Naming → β → Except Fault δ}
    (first : Walks action d fun a d' => ∃ b, R d' a b ∧ ∀ ν, d'.uris.Fits ν → built ν = .ok b)
    (rest : ∀ a b d', d.Walked d' → R d' a b → Walks (next a) d' fun c d'' =>
      ∃ e, S d'' c e ∧ ∀ ν, d''.uris.Fits ν → m ν b = .ok e) :
    Walks (action >>= next) d fun c d'' =>
      ∃ e, S d'' c e ∧ ∀ ν, d''.uris.Fits ν → (built ν >>= m ν) = .ok e := by
  refine first.bind fun a d' walked ⟨b, here, eq⟩ => ?_
  refine (rest a b d' walked here).mono fun c d'' later ⟨e, there, eq'⟩ => ⟨e, there, fun ν fits => ?_⟩
  rw [eq ν (fits.of_extends later.grows.uris.extends)]
  exact eq' ν fits

namespace Draft

variable {d d' : Draft} {o : Options} {s : Schema}

theorem typeGrammars_eq_onceFor (t : TypeDef) :
    typeGrammars t = onceFor t.name? (typeGrammars t.inline) := by
  cases t <;> rfl

theorem typeGrammars_of_registered {t : TypeDef} {name : QName} {pair : GrammarPair}
    (named : t.name? = some name) (found : d.types.find? name = some pair) :
    typeGrammars t d = .ok pair d := by
  rw [typeGrammars_eq_onceFor, named]
  simp only [onceFor, bind, EStateM.bind, get, getThe, MonadStateOf.get, EStateM.get, found]
  rfl

theorem typeGrammars_of_absent {t : TypeDef} {name : QName} (named : t.name? = some name)
    (absent : d.types.find? name = none) (idle : d.active = []) :
    typeGrammars t d = (whileActive name (typeGrammars t.inline) >>= fun pair =>
      declareType name pair >>= fun _ => pure pair) d := by
  have notActive : d.active.contains name = false := by
    rw [idle]
    rfl
  rw [typeGrammars_eq_onceFor, named]
  simp only [onceFor, bind, EStateM.bind, get, getThe, MonadStateOf.get, EStateM.get, absent,
    notActive]
  rfl

/-- A type without a name is built where it stands. -/
theorem walks_typeGrammars_inline (t : TypeDef) (d : Draft) :
    Walks (typeGrammars t.inline) d fun pair d' => ∃ gs, d'.HoldsPair pair gs ∧
      ∀ ν, d'.uris.Fits ν → t.grammars d.options ν = .ok gs := by
  have built {α β : Type} {action : Drafting α} {d : Draft} {R : Draft → α → β → Prop}
      {built : Naming → Except Fault β} (spec : Makes action d R built) :
      Walks action d fun a d' => ∃ b, R d' a b ∧ ∀ ν, d'.uris.Fits ν → built ν = .ok b :=
    (Walks.of_makes spec).mono fun _ _ _ here => here.2
  cases t with
  | simple name variety builtIn => exact built (makes_varietyGrammars d.options name variety builtIn)
  | complex name attributes wildcard content =>
    exact (built (makes_attributesOf attributes)).bind_built fun uses gs d₁ _ usesHere =>
      ((walks_contentGrammar content d₁).mono fun _ _ _ here => here.2).bind_built
        fun id g d₂ walked here => built (makes_complexPair wildcard
          (usesHere.imp fun _ _ known => walked.grows.grammars known) here)

theorem bears_of_pair {pair : GrammarPair} {t : TypeDef}
    (built : ∃ gs, d.HoldsPair pair gs ∧ ∀ ν, d.uris.Fits ν → t.grammars o ν = .ok gs) :
    d.Bears pair.grammar (heldGrammar o (some t)) := by
  obtain ⟨gs, here, eq⟩ := built
  exact ⟨gs.1, here.1, fun ν fits => congrArg (Except.map Prod.fst) (eq ν fits)⟩

theorem walks_whileActive_inline (t : TypeDef) (name : QName) (options : d.options = o) :
    Walks (whileActive name (typeGrammars t.inline)) d fun pair d' =>
      d'.Bears pair.grammar (heldGrammar o (some t)) := by
  have inner : Walks (typeGrammars t.inline) { d with active := name :: d.active } fun pair d' =>
      d'.Bears pair.grammar (heldGrammar o (some t)) :=
    (walks_typeGrammars_inline t _).mono fun _ _ _ built => options ▸ bears_of_pair built
  exact walks_whileActive inner

theorem walks_typeGrammars_of_absent {t : TypeDef} (options : d.options = o) (idle : d.active = [])
    (absent : ∀ name, t.name? = some name → d.types.find? name = none) :
    Walks (typeGrammars t) d fun pair d' => d'.Bears pair.grammar (heldGrammar o (some t)) := by
  cases named : t.name? with
  | none =>
    have spec := walks_typeGrammars_inline t d
    rw [TypeDef.inline_eq named] at spec
    exact spec.mono fun _ _ _ built => options ▸ bears_of_pair built
  | some name =>
    have spec : Walks (whileActive name (typeGrammars t.inline) >>= fun pair =>
        declareType name pair >>= fun _ => pure pair) d fun pair d' =>
          d'.Bears pair.grammar (heldGrammar o (some t)) :=
      (walks_whileActive_inline t name options).bind fun pair d₁ _ bears =>
        (walks_declareType name pair).bind fun _ _ walked _ => .pure (bears.grow walked.grows)
    intro sound
    rw [Yields, typeGrammars_of_absent named (absent name named) idle]
    exact spec sound

/-- Each of the declared names is registered with the grammars of its first definition. -/
structure Standing (d : Draft) (o : Options) (ts : List TypeDef) : Prop where
  options : d.options = o
  idle : d.active = []
  pending : d.pending = []
  any : ∀ id, d.anyType = some id → d.Holds id .anything
  types : ∀ name pair, d.types.find? name = some pair →
    ∃ t, ts.find? (fun t => t.name? == some name) = some t ∧
      d.Bears pair.grammar (heldGrammar o (some t))
  absent : ∀ name, d.types.find? name = none → ts.find? (fun t => t.name? == some name) = none

theorem standing_start (o : Options) : (start o).Standing o [] :=
  ⟨rfl, rfl, rfl, fun _ here => (by cases here), fun _ _ found => (by cases found),
    fun _ _ => rfl⟩

namespace Standing

variable {ts : List TypeDef} {t : TypeDef}

theorem keep (standing : d.Standing o ts) (walked : d.Walked d') (rested : d.Rested d') :
    d'.Standing o ts := by
  refine ⟨walked.options.trans standing.options, walked.active.trans standing.idle,
    rested.pending.trans standing.pending, rested.any standing.any, fun name pair found => ?_,
    rested.types ▸ standing.absent⟩
  obtain ⟨t, first, bears⟩ := standing.types name pair (rested.types ▸ found)
  exact ⟨t, first, bears.grow walked.grows⟩

theorem settled (standing : d.Standing o ts) (declared : t ∈ ts) : d.Settled t := by
  intro name named
  refine ⟨standing.idle ▸ List.not_mem_nil, Option.ne_none_iff_exists'.1 fun absent => ?_⟩
  have none := List.find?_eq_none.1 (standing.absent name absent) t declared
  exact none (beq_iff_eq.2 named)

theorem settled_of_within (standing : d.Standing o ts) {inner : List TypeDef}
    (within : Within ts inner) : ∀ t ∈ inner, d.Settled t :=
  fun t mem name named => standing.settled (within t mem name named) name named

/-- A type that is used gets the grammar of the definition in force. -/
theorem yields_typeGrammars (standing : d.Standing o s.types) (sound : d.store.Sound)
    (within : Within s.types t.types) :
    Yields (typeGrammars t) d (fun pair d' => d.Walked d' ∧ d.Rested d' ∧
      d'.Bears pair.grammar (heldGrammar o (some (s.inForce t)))) fun _ _ => True := by
  have settled := standing.settled_of_within within
  cases named : t.name? with
  | none =>
    have spec := (walks_typeGrammars_inline t d sound).and
      (rests_typeGrammars t.inline d (by rwa [TypeDef.inline_eq named]) sound)
    rw [TypeDef.inline_eq named, standing.options] at spec
    have itself : s.inForce t = t := by rw [Schema.inForce, named]; rfl
    rw [itself]
    exact spec.mono (fun pair d' ⟨⟨walked, built⟩, rested⟩ => ⟨walked, rested, bears_of_pair built⟩)
      fun _ _ _ => trivial
  | some name =>
    obtain ⟨_, pair, found⟩ := settled t List.mem_cons_self name named
    obtain ⟨t', first, bears⟩ := standing.types name pair found
    have inForce : s.inForce t = t' := by
      rw [Schema.inForce, named, Option.bind_some, Schema.type?, first, Option.getD_some]
    rw [Yields, typeGrammars_of_registered named found, inForce]
    exact ⟨.refl d, .refl d, bears⟩

theorem find?_append_of_ne {name other : QName} (named : t.name? = some name) (ne : other ≠ name) :
    (ts ++ [t]).find? (fun t => t.name? == some other) =
      ts.find? fun t => t.name? == some other := by
  rw [List.find?_append, List.find?_singleton, if_neg, Option.or_none]
  rw [beq_iff_eq, named]
  exact fun same => ne (Option.some.inj same).symm

/-- A further definition of a name does not count. -/
theorem declareAgain (standing : d.Standing o ts) {name : QName} {pair : GrammarPair}
    (named : t.name? = some name) (found : d.types.find? name = some pair) :
    d.Standing o (ts ++ [t]) := by
  refine ⟨standing.options, standing.idle, standing.pending, standing.any,
    fun other pair' found' => ?_, fun other absent => ?_⟩
  · obtain ⟨t', first, bears⟩ := standing.types other pair' found'
    exact ⟨t', by rw [List.find?_append, first, Option.some_or], bears⟩
  · have ne : other ≠ name := by
      rintro rfl
      cases absent.symm.trans found
    rw [find?_append_of_ne named ne]
    exact standing.absent other absent

/-- The first definition of a name counts. -/
theorem declareFirst (standing : d.Standing o ts) {name : QName} {pair : GrammarPair}
    (named : t.name? = some name) (absent : d.types.find? name = none)
    (bears : d.Bears pair.grammar (heldGrammar o (some t))) :
    Standing { d with types := d.types.insert name pair } o (ts ++ [t]) := by
  refine ⟨standing.options, standing.idle, standing.pending, standing.any,
    fun other pair' found => ?_, fun other absent' => ?_⟩
  · rw [TypeRegistry.find?_insert] at found
    split at found
    · next same =>
      subst same
      cases found
      refine ⟨t, ?_, bears⟩
      rw [List.find?_append, standing.absent other absent, Option.none_or, List.find?_singleton,
        if_pos (beq_iff_eq.2 named)]
    · next ne =>
      rw [find?_append_of_ne named ne]
      exact standing.types other pair' found
  · rw [TypeRegistry.find?_insert] at absent'
    split at absent'
    · cases absent'
    · next ne =>
      rw [find?_append_of_ne named ne]
      exact standing.absent other absent'

theorem settled_inline (standing : d.Standing o ts) {name : QName}
    (absent : d.types.find? name = none) (within : Within ts (typesOf t.elements)) :
    ∀ t' ∈ t.inline.types, Settled { d with active := name :: d.active } t' := by
  rw [TypeDef.types_inline, List.forall_mem_cons]
  refine ⟨fun other named => ?_, fun t' mem other named => ?_⟩
  · rw [TypeDef.name?_inline] at named
    cases named
  · obtain ⟨notActive, pair, found⟩ := standing.settled_of_within within t' mem other named
    refine ⟨List.not_mem_cons_of_ne_of_not_mem ?_ notActive, pair, found⟩
    -- a type inside of the same name would have been registered
    rintro rfl
    cases found.symm.trans absent

theorem yields_declare (standing : d.Standing o ts) (sound : d.store.Sound) {name : QName}
    (named : t.name? = some name) (within : Within ts (typesOf t.elements)) :
    Yields (typeGrammars t) d (fun _ d' => d.Walked d' ∧ d'.globals = d.globals ∧
      d'.Standing o (ts ++ [t])) fun _ _ => True := by
  cases found : d.types.find? name with
  | some pair =>
    rw [Yields, typeGrammars_of_registered named found]
    exact ⟨.refl d, rfl, standing.declareAgain named found⟩
  | none =>
    have spec := (walks_whileActive_inline t name standing.options sound).and (rests_whileActive
      (rests_typeGrammars t.inline _ (standing.settled_inline found within)) sound)
    rw [Yields, typeGrammars_of_absent named found standing.idle]
    refine (spec.mono_fails fun _ _ _ => trivial).bind ?_
    rintro pair d₁ ⟨⟨walked, bears⟩, rested⟩
    refine ((walks_declareType name pair (walked.grows.sound sound)).mono_fails
      fun _ _ _ => trivial).bind ?_
    rintro _ _ ⟨walked₁, rfl⟩
    exact ⟨walked.trans walked₁, rested.globals, (standing.keep walked rested).declareFirst named
      (rested.types ▸ found) bears⟩

end Standing

theorem yields_anyTypeGrammar :
    Yields anyTypeGrammar d (fun id d' => d'.anyType = some id) fun _ _ => True := by
  refine yields_get_bind ?_
  split
  · next id here => exact here
  · exact yields_bind_any fun id d' => rfl

/-- The grammar of any content is built once and stays. -/
theorem yields_any (any : ∀ id, d.anyType = some id → d.Holds id .anything) (sound : d.store.Sound) :
    Yields anyTypeGrammar d (fun id d' => d.Walked d' ∧ d.Rested d' ∧
      d'.Bears id fun _ => .ok .anything) fun _ d' => d.Walked d' := by
  refine (((walks_anyTypeGrammar sound).and (rests_anyTypeGrammar sound)).and
    yields_anyTypeGrammar).mono ?_ fun _ _ bad => bad.1.1
  rintro id d' ⟨⟨⟨walked, _⟩, rested⟩, here⟩
  exact ⟨walked, rested, .anything, rested.any any id here, fun _ _ => rfl⟩

namespace Standing

variable {ts : List TypeDef}

/-- An element gets a grammar of its own, that of the definition in force of its type. -/
theorem yields_elementGrammar (standing : d.Standing o s.types) (sound : d.store.Sound)
    {decl : ElementDecl} (within : Within s.types (typesOf (decl :: decl.inner))) :
    Yields (elementGrammar decl) d (fun id d' => d.Walked d' ∧ d.Rested d' ∧
      d'.Bears id (heldGrammar o (decl.type.map s.inForce))) fun _ _ => True := by
  have first : Yields (held decl.type) d (fun id d' => d.Walked d' ∧ d.Rested d' ∧
      d'.Bears id (heldGrammar o (decl.type.map s.inForce))) fun _ _ => True := by
    obtain ⟨name, substitutes, _ | type⟩ := decl
    · exact (yields_any standing.any sound).mono_fails fun _ _ _ => trivial
    · refine Yields.bind (standing.yields_typeGrammars sound within) ?_
      exact fun _ _ good => good
  rw [elementGrammar_eq]
  refine first.bind ?_
  rintro type d₁ ⟨walked, rested, g, here, eq⟩
  refine (forElement_yields (walked.grows.sound sound) here).mono ?_ fun _ _ _ => trivial
  rintro id d₂ ⟨adds, _, holds⟩
  exact ⟨walked.trans adds.walked.1, rested.trans adds.rested, g, holds,
    fun ν fits => eq ν (fits.of_extends adds.extends)⟩

theorem withGlobals (standing : d.Standing o ts) (globals : Array GlobalElement) :
    Standing { d with globals } o ts :=
  ⟨standing.options, standing.idle, standing.pending, standing.any, standing.types, standing.absent⟩

theorem yields_addTypes (off : o.skipUnsupported = false) : ∀ (rest done : List TypeDef) (d : Draft),
    d.store.Sound → d.Standing o done → Schema.InOrder (done ++ rest).reverse →
    Yields (addTypes rest) d (fun _ d' => d.Walked d' ∧ d'.globals = d.globals ∧
      d'.Standing o (done ++ rest)) fun _ _ => True
  | [], done, d, _, standing, _ => yields_pure ⟨.refl d, rfl, by rwa [List.append_nil]⟩
  | t :: rest, done, d, sound, standing, order => by
    -- `InOrder` has what was declared last in front, so `t` stands before all that is done
    have upTo : Schema.InOrder (t :: done.reverse) := by
      rw [List.reverse_append, List.reverse_cons, List.append_assoc] at order
      exact order.of_append
    obtain ⟨⟨name, named⟩, within, _⟩ := upTo
    have within : Within done (typesOf t.elements) :=
      within.mono fun t' mem => List.mem_reverse.1 mem
    have spec := (walks_typeGrammars t d sound).and (standing.yields_declare sound named within)
    rw [addTypes]
    refine ((yields_orSkip spec fun f d' bad => ?_).mono_fails
      fun _ _ _ => trivial).bind ?_
    · rw [bad.1.options, standing.options, off]
    · rintro _ d₁ ⟨_, rfl, _, walked, globals, standing₁⟩
      rw [List.append_cons] at order
      refine (yields_addTypes off rest (done ++ [t]) d₁ (walked.grows.sound sound) standing₁
        order).mono ?_ fun _ _ _ => trivial
      rintro _ d₂ ⟨walked₂, globals₂, standing₂⟩
      rw [List.append_cons]
      exact ⟨walked.trans walked₂, globals₂.trans globals, standing₂⟩

end Standing

theorem Standing.yields_addElements (off : o.skipUnsupported = false) :
    ∀ (es : List ElementDecl) (d : Draft), d.store.Sound → d.Standing o s.types →
      (∀ e ∈ es, Within s.types (typesOf (e :: e.inner))) →
      Yields (addElements es) d (fun _ d' => d.Walked d' ∧ d'.Standing o s.types ∧
        ∃ entries, d'.globals.toList = d.globals.toList ++ entries ∧
          List.Forall₂ (d'.Lists o fun decl => decl.type.map s.inForce) entries es) fun _ _ => True
  | [], d, _, standing, _ =>
    yields_pure ⟨.refl d, standing, [], (List.append_nil _).symm, .nil⟩
  | decl :: es, d, sound, standing, within => by
    obtain ⟨first, rest⟩ := List.forall_mem_cons.1 within
    have spec := (walks_elementGrammar decl sound).and (standing.yields_elementGrammar sound first)
    rw [addElements]
    refine ((yields_orSkip spec fun f d' bad => ?_).mono_fails
      fun _ _ _ => trivial).bind ?_
    · rw [bad.1.options, standing.options, off]
    · rintro _ d₁ ⟨id, rfl, _, walked, rested, g, here, eq⟩
      have sound₁ := walked.grows.sound sound
      refine (((walks_declareGlobal decl.name id sound₁).and (declareGlobal_yields sound₁ here)).mono
        (fun _ _ good => good) fun _ _ _ => trivial).bind ?_
      rintro _ _ ⟨⟨walked₁, _⟩, d₂, ref, adds, _, found, _, rfl⟩
      have standing₂ := ((standing.keep walked rested).keep adds.walked.1 adds.rested).withGlobals
        (d₂.globals.push ⟨ref, id⟩)
      have both := walked.trans walked₁
      refine (yields_addElements off es _ (both.grows.sound sound) standing₂ rest).mono ?_
        fun _ _ _ => trivial
      rintro _ d₃ ⟨walked₃, standing₃, entries, appended, follow⟩
      refine ⟨both.trans walked₃, standing₃, ⟨ref, id⟩ :: entries, ?_, .cons ?_ follow⟩
      · rw [appended, Array.toList_push, adds.rested.globals, rested.globals, List.append_assoc]
        rfl
      · have lists : d₂.Lists o (fun decl => decl.type.map s.inForce) ⟨ref, id⟩ decl :=
          ⟨found, g, adds.holds here, fun ν fits => eq ν (fits.of_extends adds.extends)⟩
        exact lists.grow walked₃.grows

/-- The whole model has been entered. -/
structure Settles (d : Draft) (o : Options) (s : Schema) : Prop where
  tracked : d.store.Tracked
  stack : d.stack = []
  standing : d.Standing o s.types
  globals : List.Forall₂ (d.Lists o fun decl => decl.type.map s.inForce) d.globals.toList s.elements
  locals : ∀ e ∈ d.locals, d.Names e.name

theorem yields_addSchema_scoped (uses : s.Scoped) (off : o.skipUnsupported = false) :
    Yields (addSchema s) (start o) (fun _ d => d.Settles o s) fun _ _ => True := by
  have sound := sound_start o
  have orderly := accounts_addSchema (s := s) (d := start o) rfl (List.Subset.refl _) sound
    (orderly_start o)
  have types := Standing.yields_addTypes off s.types [] (start o) sound (standing_start o) uses.types
  have whole : Yields (addSchema s) (start o) (fun _ d => (start o).Walked d ∧
      d.Standing o s.types ∧
        List.Forall₂ (d.Lists o fun decl => decl.type.map s.inForce) d.globals.toList s.elements)
      fun _ _ => True := by
    refine types.bind ?_
    rintro _ d₁ ⟨walked, globals, standing⟩
    refine (standing.yields_addElements off s.elements d₁ (walked.grows.sound sound)
      uses.elements).mono ?_ fun _ _ _ => trivial
    rintro _ d₂ ⟨walked₂, standing₂, entries, appended, follow⟩
    rw [globals] at appended
    exact ⟨walked.trans walked₂, standing₂, appended.symm ▸ follow⟩
  refine ((whole.and (walks_addSchema s sound)).and orderly).mono ?_ fun _ _ _ => trivial
  rintro _ d ⟨⟨⟨walked, standing, globals⟩, _, stack⟩, orderly, _⟩
  exact ⟨walked.grows.tracked Store.tracked_initial, stack, standing, globals, orderly.locals⟩

theorem Settles.compiles (settles : d.Settles o s) : ∃ c, finish d = .ok c d ∧ d.Compiles c := by
  obtain ⟨c, moved⟩ := canonical_eq_ok settles.tracked (fun e mem => by
    obtain ⟨decl, _, lists⟩ := exists_of_mem_forall₂ settles.globals (Array.mem_toList_iff.2 mem)
    exact names_of_find? lists.name) settles.locals
  refine ⟨c, ?_, compiles_of_canonical settles.tracked moved⟩
  rw [finish_eq settles.standing.pending settles.stack, moved]
  rfl

end Draft

end ExiSchema
