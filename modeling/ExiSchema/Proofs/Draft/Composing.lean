import ExiSchema.Proofs.Draft.Making
import ExiSchema.Proofs.Model.Grammars

/-!
What the actions that compose grammars build. Each is given by the function of grammars, names and
bounds that it carries out; numbers of grammars that stand for nothing are faults on both sides.
-/

set_option autoImplicit false

namespace ExiSchema.Draft

variable {d : Draft}

/-- The pair has the numbers of both grammars of a type. -/
def HoldsPair (d : Draft) (pair : GrammarPair) (gs : Grammar × Grammar) : Prop :=
  d.Holds pair.grammar gs.1 ∧ d.Holds pair.empty gs.2

theorem makes_insert {g : Grammar} (derived : Grammar.Derives d.uris (· ∈ d.grammars) g) :
    Makes (insert g) d Holds fun _ => .ok g := by
  intro _
  unfold Yields insert
  by_cases room : d.grammars.size < grammarLimit
  · simp only [if_pos room]
    refine ⟨⟨rfl, .single (.insert derived room)⟩, g, ?_, fun _ _ => rfl⟩
    exact Array.getElem?_push_size
  · simp only [if_neg room]
    exact ⟨.refl d, .inl trivial⟩

/-- What an action on the tables does to a draft. -/
theorem yields_onTables {α : Type} {action : UriTable.Action α} {ok : α → UriTable → Prop}
    {fails : Fault → UriTable → Prop} (spec : Yields action d.uris ok fails) :
    Yields (onTables action) d (fun a d' => d' = { d with uris := d'.uris } ∧ ok a d'.uris)
      (fun f d' => d' = { d with uris := d'.uris } ∧ fails f d'.uris) := by
  unfold Yields onTables
  unfold Yields at spec
  cases run : action d.uris with
  | ok a uris => exact ⟨rfl, by rwa [run] at spec⟩
  | error fault uris => exact ⟨rfl, by rwa [run] at spec⟩

theorem adds_of_grows {d' : Draft} (frame : d' = { d with uris := d'.uris })
    (grows : d.uris.Grows d'.uris) : d.Adds d' := by
  refine ⟨by rw [frame]; rfl, ?_⟩
  rw [frame]
  exact .ofTables grows

/-- What enters a row gives it back, and finds it in the tables from then on. -/
theorem makes_onTables {α : Type} {action : UriTable.Action α} {built : Naming → Except Fault α}
    (finds : UriTable → α → Prop)
    (spec : Yields action d.uris
      (fun a t => d.uris.Grows t ∧ finds t a ∧ ∀ ν, t.Fits ν → built ν = .ok a)
      fun f t => d.uris.Grows t ∧ (f = .memoryAllocation ∨ ∀ ν, built ν = .error f)) :
    Makes (onTables action) d (fun d' a b => a = b ∧ finds d'.uris a) built := by
  intro _
  refine (yields_onTables spec).mono ?_ ?_
  · rintro a d' ⟨frame, grows, found, made⟩
    exact ⟨adds_of_grows frame grows, a, ⟨rfl, found⟩, made⟩
  · rintro f d' ⟨frame, grows, cause⟩
    exact ⟨adds_of_grows frame grows, cause.imp_right fun bad ν _ => bad ν⟩

theorem makes_enterUri (uri : String) :
    Makes (enterUri uri) d (fun d' row row' => row = row' ∧ d'.uris.lookup uri = some row)
      fun ν => do
        let _ ← Label.ofText uri
        return ν.uri uri := by
  refine makes_onTables (fun t row => t.lookup uri = some row)
    ((UriTable.yields_enterUri uri d.uris).mono ?_ ?_)
  · rintro row t ⟨grows, found, ascii⟩
    refine ⟨grows, found, fun ν fits => ?_⟩
    rw [Label.ofText_eq_ok ascii, fits.uri uri row found]
    rfl
  · rintro f t ⟨grows, cause⟩
    refine ⟨grows, cause.imp_right fun bad ν => ?_⟩
    rw [bad]
    rfl

theorem makes_enterName (q : QName) :
    Makes (enterName q) d (fun d' ref ref' => ref = ref' ∧ d'.uris.find? q = some ref)
      fun ν => do
        q.check
        return ν.name q := by
  refine makes_onTables (fun t ref => t.find? q = some ref)
    ((UriTable.yields_enterName q d.uris).mono ?_ ?_)
  · rintro ref t ⟨grows, found, checked⟩
    refine ⟨grows, found, fun ν fits => ?_⟩
    rw [checked, fits.name q ref found]
    rfl
  · rintro f t ⟨grows, cause⟩
    refine ⟨grows, cause.imp_right fun bad ν => ?_⟩
    rw [bad]
    rfl

theorem labelAt?_of_lookup {t : UriTable} {uri : String} {row : Nat}
    (found : t.lookup uri = some row) : ∃ label, t.labelAt? row = some label := by
  obtain ⟨r, here, _⟩ := Table.text_of_lookup found
  exact ⟨r.label, Option.map_eq_some_iff.2 ⟨r, here, rfl⟩⟩

theorem stands_startElementNs {t : UriTable} {row : Nat} {label : Label}
    (here : t.labelAt? row = some label) : (Event.startElementNs row).Stands t :=
  ⟨by simp, by simp, by simp [Event.named?, here]⟩

theorem stands_attributeNs {t : UriTable} {row : Nat} {label : Label}
    (here : t.labelAt? row = some label) : (Event.attributeNs row).Stands t :=
  ⟨by simp, by simp, by simp [Event.named?, here]⟩

theorem stands_startElement {t : UriTable} {q : QName} {ref : NameRef}
    (found : t.find? q = some ref) : (Event.startElement ref).Stands t :=
  ⟨by simp, by simp, by simp [Event.named?, UriTable.resolve?_of_find? found]⟩

theorem stands_attribute {t : UriTable} {q : QName} {ref : NameRef} (value : Datatype)
    (found : t.find? q = some ref) : (Event.attribute ref value).Stands t :=
  ⟨by simp, by simp, by simp [Event.named?, UriTable.resolve?_of_find? found]⟩

theorem eq_and_forall_of_forall₂ {α : Type} {P : α → Prop} {as bs : List α}
    (all : List.Forall₂ (fun a b => a = b ∧ P a) as bs) : as = bs ∧ ∀ a ∈ as, P a := by
  induction all with
  | nil => simp
  | cons first _ ih =>
    obtain ⟨rfl, here⟩ := first
    obtain ⟨rfl, later⟩ := ih
    exact ⟨rfl, List.forall_mem_cons.2 ⟨here, later⟩⟩

/-- Some rows, each of the table. -/
def RowsStand (d : Draft) (rows rows' : List Nat) : Prop :=
  rows = rows' ∧ rows ≠ [] ∧ ∀ row ∈ rows, ∃ label, d.uris.labelAt? row = some label

theorem makes_namespaceRows (uris : List String) :
    Makes (namespaceRows uris) d RowsStand fun ν => ν.rows uris := by
  unfold namespaceRows Naming.rows
  by_cases none : uris.isEmpty
  · simp only [none, if_true]
    exact .throw
  · simp only [none, Bool.false_eq_true, if_false]
    have each := Makes.mapM (d := d)
      (R := fun d' row row' => row = row' ∧ ∃ label, d'.uris.labelAt? row = some label)
      (fun d₁ d₂ row row' adds ⟨same, label, here⟩ => ⟨same, label, adds.extends.labelAt? here⟩)
      uris (fun uri _ d' _ => (makes_enterUri (d := d') uri).mono fun d'' row row' _ ⟨same, found⟩ =>
        ⟨same, labelAt?_of_lookup found⟩)
    refine each.mono fun d' rows rows' _ ⟨all, length⟩ => ?_
    obtain ⟨same, here⟩ := eq_and_forall_of_forall₂ all
    refine ⟨same, ?_, here⟩
    rintro rfl
    exact none (List.isEmpty_iff.2 (List.length_eq_zero_iff.1 length.symm))

/-- Some events, each over rows of the table. -/
def EventsStand (d : Draft) (events events' : List Event) : Prop :=
  events = events' ∧ events ≠ [] ∧ ∀ e ∈ events, e.Stands d.uris

theorem stands_startElementAny (t : UriTable) : Event.startElementAny.Stands t :=
  ⟨by simp, by simp, rfl⟩

theorem stands_attributeAny (t : UriTable) : Event.attributeAny.Stands t :=
  ⟨by simp, by simp, rfl⟩

theorem RowsStand.map {rows rows' : List Nat} {event : Nat → Event} (here : RowsStand d rows rows')
    (stands : ∀ row label, d.uris.labelAt? row = some label → (event row).Stands d.uris) :
    EventsStand d (rows.map event) (rows'.map event) := by
  obtain ⟨rfl, some, rows⟩ := here
  refine ⟨rfl, by simpa using some, fun e mem => ?_⟩
  obtain ⟨row, inner, rfl⟩ := List.mem_map.1 mem
  obtain ⟨label, here⟩ := rows row inner
  exact stands row label here

theorem makes_admittedEvents (wildcard : Wildcard) :
    Makes (admittedEvents wildcard) d EventsStand fun ν => ν.attributeEvents wildcard := by
  cases wildcard with
  | any | except _ => exact .pure ⟨rfl, by simp, by simpa using stands_attributeAny d.uris⟩
  | among uris =>
    refine (makes_namespaceRows uris).bind fun rows rows' d' _ here => ?_
    exact .pure (here.map fun _ _ => stands_attributeNs)

theorem makes_wildcardTerm (wildcard : Wildcard) :
    Makes (wildcardTerm wildcard) d Holds fun ν => do
      return .oneOf (← ν.elementEvents wildcard) := by
  have insertOne (d : Draft) : Makes (insert (.oneOf [.startElementAny])) d Holds
      fun _ => .ok (.oneOf [.startElementAny]) :=
    makes_insert (.oneOf (by simp) (by simpa using stands_startElementAny d.uris))
  cases wildcard with
  | any | except _ => exact insertOne d
  | among uris =>
    refine ((makes_namespaceRows uris).bind (m := fun _ rows =>
      .ok (.oneOf (rows.map .startElementNs))) fun rows rows' d' _ here => ?_).congr ?_
    · obtain ⟨same, some, stand⟩ := here.map fun _ _ => stands_startElementNs
      rw [← same]
      exact makes_insert (.oneOf some stand)
    · intro ν _
      simp only [Naming.elementEvents]
      cases ν.rows uris <;> rfl

theorem makes_elementTerm (name : QName) :
    Makes (elementTerm name) d Holds fun ν => do
      name.check
      return .single (.startElement (ν.name name)) := by
  refine ((makes_enterName name).bind (m := fun _ ref =>
    .ok (.single (.startElement ref))) fun ref ref' d' _ here => ?_).congr ?_
  · obtain ⟨rfl, found⟩ := here
    exact makes_insert (.single (stands_startElement found))
  · intro ν _
    cases name.check <;> rfl

theorem datatype_eq (builtIn : String) : datatype builtIn d = ofExcept (Datatype.check builtIn) d := by
  unfold datatype Datatype.check ofExcept
  cases Datatype.ofBuiltIn? builtIn <;> rfl

theorem stands_characters (t : UriTable) (value : Datatype) : (Event.characters value).Stands t :=
  ⟨by simp, by simp, rfl⟩

theorem makes_simpleContent (builtIn : String) :
    Makes (simpleContent builtIn) d Holds fun _ => do
      let value ← Datatype.check builtIn
      return .single (.characters value) :=
  Makes.bind_reads (datatype_eq builtIn) fun value _ =>
    makes_insert (.single (stands_characters d.uris value))

theorem makes_emptyContent : Makes emptyContent d Holds fun _ => .ok .endOnly :=
  makes_insert .endOnly

theorem makes_attributeUse (u : AttributeUse) :
    Makes (attributeUse u.required u.name u.builtIn) d Holds fun ν => u.grammar ν := by
  refine Makes.bind_reads (datatype_eq u.builtIn) fun value _ => ?_
  refine ((makes_enterName u.name).bind (S := Holds) (m := fun _ ref =>
    .ok (if u.required then .single (.attribute ref value)
      else (Grammar.single (.attribute ref value)).withEscape)) fun ref ref' d' _ here => ?_).congr ?_
  · obtain ⟨rfl, found⟩ := here
    have derived : Grammar.Derives d'.uris (· ∈ d'.grammars) (.single (.attribute ref value)) :=
      .single (stands_attribute value found)
    cases u.required with
    | true => exact makes_insert derived
    | false => exact makes_insert derived.withEscape
  · intro ν _
    cases u.name.check <;> rfl

theorem known_of_mapM_read {ids : List GrammarId} {parts : List Grammar}
    (run : ids.mapM d.read = .ok parts) :
    ∀ p ∈ parts, Grammar.Derives d.uris (· ∈ d.grammars) p :=
  fun p mem => .known (mem_of_mapM_read run p mem)

/-- A grammar that is made of known ones, or the fault that it cannot be made. -/
theorem makes_insert_result {r : Except Fault Grammar}
    (derived : ∀ g, r = .ok g → Grammar.Derives d.uris (· ∈ d.grammars) g) :
    Makes (do insert (← ofExcept r)) d Holds fun _ => r := by
  have spec : Makes (ofExcept r >>= insert) d Holds fun _ => r >>= fun g => .ok g :=
    Makes.bind_reads rfl fun g eq => makes_insert (derived g eq)
  refine spec.congr fun ν _ => ?_
  cases r <;> rfl

theorem makes_chain (ids : List GrammarId) :
    Makes (chain ids) d Holds fun _ => ids.mapM d.read >>= Grammar.sequence := by
  refine Makes.bind_reads (mapM_ofExcept (fun id => grammar_eq id d) ids) fun parts known => ?_
  exact makes_insert_result fun g run => .sequence (known_of_mapM_read known) run

theorem Holds.start {id : GrammarId} {g : Grammar} (here : d.Holds id g) (sound : d.store.Sound) :
    0 < g.size := (sound g here.mem).nonempty

theorem startRule_eq {g : Grammar} (id : GrammarId) (nonempty : 0 < g.size) :
    ∃ r, g.rule? 0 = some r ∧ startRule id g d = .ok r d := by
  obtain ⟨r, rule⟩ := Grammar.rule?_eq_some_of_lt nonempty
  exact ⟨r, rule, by rw [startRule, rule]⟩

theorem makes_withEscape {id : GrammarId} {g : Grammar} (here : d.Holds id g) :
    Makes (withEscape id) d (fun d' id' g' => d'.Holds id' g' ∧ g'.EndsAt 0) fun _ =>
      .ok g.escaped := by
  refine .of_sound fun sound => ?_
  have nonempty := here.start sound
  obtain ⟨r, rule, started⟩ := startRule_eq (d := d) id nonempty
  have run : withEscape id d =
      (if r.hasEnd then (pure id : Drafting GrammarId) else insert g.withEscape) d := by
    simp only [withEscape, bind, EStateM.bind, grammar_eq, here.read, ofExcept, started]
  refine Makes.of_eq ?_ run
  by_cases ends : r.hasEnd = true
  · have open_ : g.EndsAt 0 := ⟨r, rule, ends⟩
    rw [if_pos ends, Grammar.escaped_eq_self open_]
    exact .pure ⟨here, open_⟩
  · have closed : ¬ g.EndsAt 0 := by
      rintro ⟨r', rule', ends'⟩
      exact ends (Option.some.inj (rule.symm.trans rule') ▸ ends')
    rw [if_neg ends, Grammar.escaped_eq_withEscape closed]
    have spec := makes_insert (Grammar.Derives.known (t := d.uris) here.mem).withEscape
    refine fun sound => (spec sound).mono_ok ?_
    rintro id' d' ⟨adds, g', there, built⟩
    cases built _ (UriTable.fits_naming _)
    exact ⟨adds, _, ⟨there, Grammar.endsAt_withEscape_iff.2 (.inr ⟨rfl, nonempty⟩)⟩, built⟩

theorem makes_looped {id : GrammarId} {g : Grammar} (here : d.Holds id g) (ends : g.EndsAt 0) :
    Makes (looped id) d Holds fun _ => .ok g.looped := by
  refine (Makes.bind_reads (grammar_eq id d) (m := fun _ g => .ok g.looped) fun g' eq => ?_).congr
    fun ν _ => ?_
  · cases eq.symm.trans here.read
    exact makes_insert ((Grammar.Derives.known here.mem).looped ends)
  · rw [here.read]
    rfl

theorem makes_joined {ids : List GrammarId} {gs : List Grammar} (here : d.HoldsAll ids gs) :
    Makes (joined ids) d Holds fun _ => Grammar.joined gs := by
  cases here with
  | nil => exact (makes_chain []).of_holdsAll .nil
  | cons first rest =>
    cases rest with
    | nil => exact .pure first
    | cons second rest => exact (makes_chain _).of_holdsAll (.cons first (.cons second rest))

theorem holdsAll_replicate {id : GrammarId} {g : Grammar} (here : d.Holds id g) (n : Nat) :
    d.HoldsAll (List.replicate n id) (List.replicate n g) := forall₂_replicate here n

theorem checkCopies_eq (count : Nat) :
    checkCopies count d = ofExcept
      (if copyLimit < count then .error (.outOfBounds count copyLimit) else .ok ()) d := by
  unfold checkCopies
  split <;> rfl

theorem makes_checkCopies_bind {count : Nat} {next : Unit → Drafting GrammarId}
    {built : Except Fault Grammar} (rest : Makes (next ()) d Holds fun _ => built) :
    Makes (checkCopies count >>= next) d Holds fun _ =>
      if copyLimit < count then .error (.outOfBounds count copyLimit) else built := by
  refine (Makes.bind_reads (checkCopies_eq count) (m := fun _ _ => built) fun _ _ => rest).congr
    fun ν _ => ?_
  split <;> rfl

theorem makes_bounded {id : GrammarId} {g : Grammar} (here : d.Holds id g) {minOccurs count : Nat}
    (le : minOccurs ≤ count) :
    Makes (do
      if minOccurs < count then do
        let optional ← withEscape id
        joined (List.replicate minOccurs id ++ List.replicate (count - minOccurs) optional)
      else joined (List.replicate minOccurs id)) d Holds fun _ =>
        Grammar.joined (List.replicate minOccurs g ++
          List.replicate (count - minOccurs) g.escaped) := by
  by_cases more : minOccurs < count
  · simp only [if_pos more]
    refine (makes_withEscape here).bind (m := fun _ optional =>
      Grammar.joined (List.replicate minOccurs g ++ List.replicate (count - minOccurs) optional))
      fun optional g' d' adds there => makes_joined ?_
    exact List.rel_append (holdsAll_replicate (adds.holds here) _) (holdsAll_replicate there.1 _)
  · obtain rfl : minOccurs = count := by omega
    simp only [if_neg more, Nat.sub_self, List.replicate_zero, List.append_nil]
    exact makes_joined (holdsAll_replicate here _)

theorem makes_loop {id : GrammarId} {g : Grammar} (here : d.Holds id g) (minOccurs : Nat) :
    Makes (do
      let optional ← withEscape id
      let loop ← looped optional
      joined (List.replicate minOccurs id ++ [loop])) d Holds fun _ =>
        Grammar.joined (List.replicate minOccurs g ++ [g.escaped.looped]) := by
  refine (makes_withEscape here).bind (m := fun _ optional =>
    Grammar.joined (List.replicate minOccurs g ++ [optional.looped]))
    fun optional g' d' adds there => ?_
  refine (makes_looped there.1 there.2).bind (m := fun _ loop =>
    Grammar.joined (List.replicate minOccurs g ++ [loop])) fun loop g'' d'' later whole => ?_
  refine makes_joined (List.rel_append (holdsAll_replicate ((adds.trans later).holds here) _) ?_)
  exact .cons whole .nil

theorem makes_particle (minOccurs : Nat) (maxOccurs : MaxOccurs) (id : GrammarId) :
    Makes (particle minOccurs maxOccurs id) d Holds fun _ =>
      d.read id >>= Grammar.repeated minOccurs maxOccurs := by
  refine Makes.bind_reads (grammar_eq id d) fun g eq => ?_
  have here : d.Holds id g := read_eq_ok_iff.1 eq
  unfold Grammar.repeated
  cases maxOccurs with
  | bounded count =>
    dsimp only
    split
    · exact .throw
    split
    · exact makes_emptyContent
    split
    · exact .pure here
    exact makes_checkCopies_bind (makes_bounded here (by omega))
  | unbounded => exact makes_checkCopies_bind (makes_loop here minOccurs)

theorem makes_sequence (ids : List GrammarId) :
    Makes (sequence ids) d Holds fun _ => ids.mapM d.read >>= Grammar.joined := by
  match ids with
  | [] => exact makes_emptyContent
  | [id] =>
    have spec : Makes (grammar id >>= fun _ => pure id) d Holds fun _ =>
        d.read id >>= fun g => .ok g :=
      Makes.bind_reads (grammar_eq id d) fun g eq => .pure (read_eq_ok_iff.1 eq)
    refine spec.congr fun ν _ => ?_
    simp only [List.mapM_cons, List.mapM_nil]
    cases d.read id <;> rfl
  | first :: second :: rest =>
    refine (makes_chain (first :: second :: rest)).congr fun ν _ => ?_
    simp only [List.mapM_cons]
    cases d.read first <;> cases d.read second <;> cases rest.mapM d.read <;> rfl

/-- The grammar of a number, if it is not too large to be counted. -/
def readCounted (d : Draft) (id : GrammarId) : Except Fault Grammar := do
  let g ← d.read id
  if g.size < Grammar.sizeLimit then return g else .error .memoryAllocation

theorem countedGrammar_eq (id : GrammarId) (d : Draft) :
    countedGrammar id d = ofExcept (d.readCounted id) d := by
  simp only [countedGrammar, readCounted, bind, EStateM.bind, Except.bind, grammar_eq]
  cases d.read id with
  | error fault => rfl
  | ok g =>
    simp only [ofExcept]
    split <;> rfl

theorem readCounted_eq_ok_iff {id : GrammarId} {g : Grammar} :
    d.readCounted id = .ok g ↔ d.Holds id g ∧ g.size < Grammar.sizeLimit := by
  rw [readCounted, except_bind_eq_ok]
  constructor
  · rintro ⟨g', here, small⟩
    split at small
    · next fits =>
      cases small
      exact ⟨read_eq_ok_iff.1 here, fits⟩
    · cases small
  · rintro ⟨here, small⟩
    exact ⟨g, here.read, if_pos small⟩

theorem read_error_of_readCounted {id : GrammarId} {f : Fault} (run : d.readCounted id = .error f) :
    f = .memoryAllocation ∨ d.read id = .error f := by
  rcases except_bind_eq_error run with bad | ⟨_, _, large⟩
  · exact .inr bad
  · split at large
    · cases large
    · cases large
      exact .inl rfl

theorem mapM_read_of_readCounted {ids : List GrammarId} {gs : List Grammar}
    (run : ids.mapM d.readCounted = .ok gs) :
    ids.mapM d.read = .ok gs ∧ gs.all (·.size < Grammar.sizeLimit) = true := by
  have each := except_mapM_eq_ok.1 run
  refine ⟨mapM_read_eq_ok_iff.2 (each.imp fun _ _ read => (readCounted_eq_ok_iff.1 read).1), ?_⟩
  refine List.all_eq_true.2 fun g mem => decide_eq_true ?_
  obtain ⟨_, _, read⟩ := exists_of_mem_forall₂ (List.Forall₂.flip each) mem
  exact (readCounted_eq_ok_iff.1 read).2

theorem mapM_read_error_of_readCounted {ids : List GrammarId} {f : Fault}
    (run : ids.mapM d.readCounted = .error f) :
    f = .memoryAllocation ∨ ids.mapM d.read = .error f := by
  induction ids with
  | nil => cases run
  | cons id ids ih =>
    rw [List.mapM_cons] at run ⊢
    rcases except_bind_eq_error run with first | ⟨g, first, later⟩
    · refine (read_error_of_readCounted first).imp_right fun bad => ?_
      rw [bad]
      rfl
    · rcases except_bind_eq_error later with rest | ⟨_, _, done⟩
      · refine (ih rest).imp_right fun bad => ?_
        rw [(readCounted_eq_ok_iff.1 first).1.read, bad]
        rfl
      · cases done

/-- Counted parts put together. -/
theorem makes_counted {ids : List GrammarId} {compose : List Grammar → Except Fault Grammar}
    {compositor : Compositor}
    (derived : ∀ parts g, (∀ p ∈ parts, Grammar.Derives d.uris (· ∈ d.grammars) p) →
      compose parts = .ok g → Grammar.Derives d.uris (· ∈ d.grammars) g)
    (grouped : ∀ parts : List Grammar, parts.all (·.size < Grammar.sizeLimit) = true →
      Grammar.grouped compositor parts = compose parts) :
    Makes (do
      let parts ← ids.mapM countedGrammar
      insert (← ofExcept (compose parts))) d Holds fun _ =>
        ids.mapM d.read >>= Grammar.grouped compositor := by
  refine (Makes.bind_reads (mapM_ofExcept (fun id => countedGrammar_eq id d) ids)
    (m := fun _ parts => compose parts) fun parts counted => ?_).relax ?_ ?_
  · refine makes_insert_result fun g run => derived parts g ?_ run
    exact known_of_mapM_read (mapM_read_of_readCounted counted).1
  · intro g run
    cases counted : ids.mapM d.readCounted with
    | error fault =>
      rw [counted] at run
      cases run
    | ok parts =>
      obtain ⟨read, small⟩ := mapM_read_of_readCounted counted
      rw [counted] at run
      rw [read]
      exact (grouped parts small).trans run
  · intro f run
    cases counted : ids.mapM d.readCounted with
    | error fault =>
      rw [counted] at run
      cases run
      refine (mapM_read_error_of_readCounted counted).imp_right fun bad => ?_
      rw [bad]
      rfl
    | ok parts =>
      obtain ⟨read, small⟩ := mapM_read_of_readCounted counted
      rw [counted] at run
      rw [read]
      exact .inr ((grouped parts small).trans run)

theorem makes_choice (ids : List GrammarId) :
    Makes (choice ids) d Holds fun _ => ids.mapM d.read >>= Grammar.grouped .choice :=
  makes_counted (fun _ _ => .choice) fun _ small => by rw [Grammar.grouped, if_pos small]

theorem makes_all (ids : List GrammarId) :
    Makes (all ids) d Holds fun _ => ids.mapM d.read >>= Grammar.grouped .all :=
  makes_counted (fun _ _ => .rounds) fun _ small => by rw [Grammar.grouped, if_pos small]

theorem makes_group (compositor : Compositor) (ids : List GrammarId) :
    Makes (group compositor ids) d Holds fun _ =>
      ids.mapM d.read >>= Grammar.grouped compositor := by
  cases compositor with
  | sequence => exact makes_sequence ids
  | choice => exact makes_choice ids
  | all => exact makes_all ids

theorem makes_mixed (id : GrammarId) :
    Makes (mixed id) d Holds fun _ => d.read id >>= fun g => .ok g.withText :=
  Makes.bind_reads (grammar_eq id d) fun _ eq =>
    makes_insert (.withText (.known (Holds.mem (read_eq_ok_iff.1 eq))))

theorem makes_forElement (id : GrammarId) :
    Makes (forElement id) d Holds fun _ => d.read id >>= fun g => .ok g.renumber :=
  Makes.bind_reads (grammar_eq id d) fun _ eq =>
    makes_insert (.renumber (.known (Holds.mem (read_eq_ok_iff.1 eq))))

theorem makes_admitEvents {events : List Event} (stand : ∀ e ∈ events, e.Stands d.uris)
    (id : GrammarId) :
    Makes (admitEvents id events) d Holds fun _ =>
      d.read id >>= fun g => .ok (g.withStartEvents events) := by
  refine Makes.bind_reads (grammar_eq id d) fun g eq => .of_sound fun sound => ?_
  have here : d.Holds id g := read_eq_ok_iff.1 eq
  obtain ⟨r, _, started⟩ := startRule_eq (d := d) id (here.start sound)
  refine (makes_insert (.withStartEvents (.known here.mem) stand)).of_eq ?_
  simp only [bind, EStateM.bind, started]

theorem makes_admitAll {events : List Event} {ids : List GrammarId} {gs : List Grammar}
    (stand : ∀ e ∈ events, e.Stands d.uris) (here : d.HoldsAll ids gs) :
    Makes (ids.mapM fun id => admitEvents id events) d HoldsAll fun _ =>
      .ok (gs.map (·.withStartEvents events)) := by
  induction ids generalizing d gs with
  | nil =>
    cases here
    exact .pure .nil
  | cons id ids ih =>
    cases here with
    | @cons _ g _ gs known rest =>
      rw [List.mapM_cons]
      refine ((makes_admitEvents stand id).of_holds known).bind (m := fun _ g =>
        .ok (g :: gs.map (·.withStartEvents events))) fun id' g' d' adds there => ?_
      refine (ih (fun e mem => (stand e mem).mono adds.extends) (adds.holdsAll rest)).bind
        (m := fun _ gs => .ok (g' :: gs)) fun ids' gs' d'' later all => ?_
      exact .pure (.cons (later.holds there) all)

theorem makes_complexContent {uses : List GrammarId} {gs : List Grammar} {content : GrammarId}
    {g : Grammar} (wildcard : Option Wildcard) (usesHere : d.HoldsAll uses gs)
    (here : d.Holds content g) :
    Makes (complexContent uses wildcard content) d Holds fun ν =>
      wildcard.mapM ν.attributeEvents >>= fun events => Grammar.complex gs events g := by
  cases wildcard with
  | none =>
    cases usesHere with
    | nil => exact .pure here
    | cons known rest =>
      exact (makes_chain _).of_holdsAll (.cons known (List.rel_append rest (.cons here .nil)))
  | some wildcard =>
    have segments : Makes (do
        let events ← admittedEvents wildcard
        let last ← emptyContent
        (uses ++ [last]).mapM fun id => admitEvents id events) d HoldsAll fun ν =>
          ν.attributeEvents wildcard >>= fun events =>
            .ok ((gs ++ [Grammar.endOnly]).map (·.withStartEvents events)) := by
      refine (makes_admittedEvents wildcard).bind (m := fun _ events =>
        .ok ((gs ++ [Grammar.endOnly]).map (·.withStartEvents events)))
        fun events events' d₁ adds stand => ?_
      obtain ⟨rfl, _, stand⟩ := stand
      refine makes_emptyContent.bind (m := fun _ last =>
        .ok ((gs ++ [last]).map (·.withStartEvents events))) fun last g' d₂ later there => ?_
      exact makes_admitAll (fun e mem => (stand e mem).mono later.extends)
        (List.rel_append ((adds.trans later).holdsAll usesHere) (.cons there .nil))
    have put (ids : List GrammarId) (gs' : List Grammar) (d₁ : Draft) (adds : d.Adds d₁)
        (all : d₁.HoldsAll ids gs') :
        Makes (if ids.isEmpty then pure content else chain (ids ++ [content])) d₁ Holds fun _ =>
          if gs'.isEmpty then .ok g else Grammar.sequence (gs' ++ [g]) := by
      cases all with
      | nil => exact .pure (adds.holds here)
      | cons known rest =>
        exact (makes_chain _).of_holdsAll
          (.cons known (List.rel_append rest (.cons (adds.holds here) .nil)))
    refine ((segments.bind (m := fun _ gs' =>
      if gs'.isEmpty then .ok g else Grammar.sequence (gs' ++ [g])) put).congr fun ν _ => ?_).of_eq ?_
    · simp only [Option.mapM_some]
      cases ν.attributeEvents wildcard <;> rfl
    · simp only [complexContent, bind_assoc]

theorem makes_complexEmpty {uses : List GrammarId} {gs : List Grammar}
    (wildcard : Option Wildcard) (usesHere : d.HoldsAll uses gs) :
    Makes (complexEmpty uses wildcard) d Holds fun ν =>
      wildcard.mapM ν.attributeEvents >>= fun events => Grammar.complex gs events .endOnly :=
  makes_emptyContent.bind (m := fun ν content =>
    wildcard.mapM ν.attributeEvents >>= fun events => Grammar.complex gs events content)
    fun _ _ _ adds here => makes_complexContent wildcard (adds.holdsAll usesHere) here

/-- Both grammars of a complex type, from those of its attributes and its content. -/
theorem makes_complexPair {uses : List GrammarId} {gs : List Grammar} {content : GrammarId}
    {g : Grammar} (wildcard : Option Wildcard) (usesHere : d.HoldsAll uses gs)
    (here : d.Holds content g) :
    Makes (do
      let grammar ← complexContent uses wildcard content
      let empty ← complexEmpty uses wildcard
      return (⟨grammar, empty⟩ : GrammarPair)) d HoldsPair fun ν => do
        let events ← wildcard.mapM ν.attributeEvents
        let grammar ← Grammar.complex gs events g
        let empty ← Grammar.complex gs events .endOnly
        return (grammar, empty) := by
  refine ((makes_complexContent wildcard usesHere here).bind (S := HoldsPair)
    fun grammar whole d₁ adds here₁ =>
      (makes_complexEmpty wildcard (adds.holdsAll usesHere)).bind (m := fun _ e => .ok (whole, e))
        fun empty e d₂ adds₂ here₂ => .pure ⟨adds₂.holds here₁, here₂⟩).congr fun ν _ => ?_
  cases wildcard.mapM ν.attributeEvents <;> rfl

/-- Attributes and content of any numbers at all: nothing but additions, whatever comes of it. -/
theorem adds_complexContent (uses : List GrammarId) (wildcard : Option Wildcard)
    (content : GrammarId) (sound : d.store.Sound) :
    Yields (complexContent uses wildcard content) d (fun _ d' => d.Adds d') fun _ d' => d.Adds d' := by
  have put (segments : List GrammarId) (d' : Draft) (adds : d.Adds d') :
      Yields (if segments.isEmpty then pure content else chain (segments ++ [content])) d'
        (fun _ d'' => d.Adds d'') fun _ d'' => d.Adds d'' := by
    split
    · exact adds
    · exact ((makes_chain _).adds (adds.grows.sound sound)).mono (fun _ _ => adds.trans)
        fun _ _ => adds.trans
  cases wildcard with
  | none => exact put uses d (.refl d)
  | some wildcard =>
    refine ((makes_admittedEvents wildcard sound).mono_fails
      fun _ _ bad => bad.1).bind ?_
    rintro events d₁ ⟨adds, _, ⟨_, _, stand⟩, _⟩
    refine ((makes_emptyContent.adds (adds.grows.sound sound)).mono (fun _ _ more => more)
      fun _ _ => adds.trans).bind fun last d₂ more => ?_
    refine (yields_mapM (E := fun _ d' => d.Adds d') (fun _ _ d' => d₁.Adds d')
      (uses ++ [last]) more fun _ id _ _ d' _ here => ?_).bind
      fun segments d₃ here => put segments d₃ (adds.trans here)
    have all := adds.trans here
    exact ((makes_admitEvents (fun e mem => (stand e mem).mono here.extends) id).adds
      (all.grows.sound sound)).mono (fun _ _ => here.trans) fun _ _ => all.trans

theorem makes_varietyGrammars (o : Options) (name : Option QName) (variety : Variety) (builtIn : String) :
    Makes (varietyGrammars builtIn variety) d HoldsPair
      ((TypeDef.simple name variety builtIn).grammars o) := by
  cases variety with
  | list _ | union _ => exact .throw
  | atomic =>
    refine ((makes_simpleContent builtIn).bind (S := HoldsPair)
      (m := fun _ g => .ok (g, Grammar.endOnly)) fun id g d₁ _ here =>
        makes_emptyContent.bind (m := fun _ e => .ok (g, e)) fun empty e d₂ adds there =>
          .pure ⟨adds.holds here, there⟩).congr fun ν _ => ?_
    simp only [TypeDef.grammars]
    cases Datatype.check builtIn <;> rfl

theorem makes_attributesOf (attributes : List AttributeUse) :
    Makes (attributesOf attributes) d HoldsAll fun ν =>
      (orderedUses d.options attributes).mapM (AttributeUse.grammar ν) :=
  (Makes.mapM (R := Holds) (fun _ _ _ _ adds here => adds.holds here) _ fun u _ _ _ =>
    makes_attributeUse u).mono fun _ _ _ _ here => here.1

theorem makes_anyContent : Makes anyContent d Holds fun _ => .ok .anything :=
  makes_insert .anything

theorem makes_anyAttributes : Makes anyAttributes d Holds fun _ => .ok .anyAttributes :=
  makes_insert .anyAttributes

end ExiSchema.Draft
