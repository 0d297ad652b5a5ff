import ExiSchema.Proofs.Draft.Moves

/-!
Numbers that stand for nothing. Whatever operations a draft comes from, an operation that succeeds
was asked with numbers of grammars and gives back numbers of grammars, except where the content of a
type without attributes is handed through unseen.
-/

set_option autoImplicit false

namespace ExiSchema

namespace Draft

variable {d d' : Draft} {id : GrammarId} {ids : List GrammarId}

theorem knows_of_mapM_read {gs : List Grammar} (run : ids.mapM d.read = .ok gs) :
    ∀ id ∈ ids, d.Knows id := by
  intro id mem
  obtain ⟨g, _, here⟩ := exists_of_mem_forall₂ (mapM_read_eq_ok_iff.1 run) mem
  exact ⟨g, here⟩

end Draft

open Draft

/-- Where the action succeeds, the numbers that it was asked with are those of grammars, and so are
those that it gives back. -/
def Handles {α : Type} (action : Drafting α) (d : Draft) (asked : List GrammarId)
    (given : α → List GrammarId) : Prop :=
  d.store.Sound → d.Filed → Yields action d
    (fun a d' => (∀ id ∈ asked, d.Knows id) ∧ ∀ id ∈ given a, d'.Knows id) fun _ _ => True

namespace Handles

variable {α β : Type} {d : Draft} {action : Drafting α} {asked : List GrammarId}
  {given : α → List GrammarId}

theorem of_makes {action : Drafting GrammarId} {built : Naming → Except Fault Grammar}
    (spec : Makes action d Holds built)
    (needs : ∀ ν g, built ν = .ok g → ∀ id ∈ asked, d.Knows id) :
    Handles action d asked fun id => [id] := by
  refine fun sound _ => (spec sound).mono ?_ fun _ _ _ => trivial
  rintro id d' ⟨_, g, here, eq⟩
  exact ⟨needs _ g (eq _ d'.uris.fits_naming), List.forall_mem_singleton.2 ⟨g, here⟩⟩

theorem of_makes_none {action : Drafting GrammarId} {built : Naming → Except Fault Grammar}
    (spec : Makes action d Holds built) : Handles action d [] fun id => [id] :=
  of_makes spec fun _ _ _ _ mem => nomatch mem

theorem of_makes_read {action : Drafting GrammarId} {id : GrammarId} {m : Grammar → Except Fault Grammar}
    (spec : Makes action d Holds fun _ => d.read id >>= m) : Handles action d [id] fun id => [id] := by
  refine of_makes spec fun _ _ run => List.forall_mem_singleton.2 ?_
  obtain ⟨g, here, _⟩ := except_bind_eq_ok.1 run
  exact ⟨g, read_eq_ok_iff.1 here⟩

theorem of_makes_readAll {action : Drafting GrammarId} {ids : List GrammarId}
    {m : List Grammar → Except Fault Grammar}
    (spec : Makes action d Holds fun _ => ids.mapM d.read >>= m) :
    Handles action d ids fun id => [id] := by
  refine of_makes spec fun _ _ run => ?_
  obtain ⟨gs, here, _⟩ := except_bind_eq_ok.1 run
  exact knows_of_mapM_read here

/-- What an operation gives back is the result of the action, in another form. -/
theorem outcome {asked' : List GrammarId} {given' : β → List GrammarId} {f : α → β}
    (spec : Handles action d asked given) (args : asked = asked') (same : ∀ a, given a = given' (f a)) :
    Handles (action >>= fun a => Pure.pure (f a)) d asked' given' :=
  fun sound filed => (spec sound filed).bind fun a _ here => ⟨args ▸ here.1, same a ▸ here.2⟩

end Handles

namespace Draft

variable {d d' : Draft} {id : GrammarId}

theorem yields_admitAll {events : List Event} (ids : List GrammarId) (sound : d.store.Sound)
    (stand : ∀ e ∈ events, e.Stands d.uris) :
    Yields (ids.mapM fun id => admitEvents id events) d
      (fun ids' d' => d.Adds d' ∧ (∀ id ∈ ids, d'.Knows id) ∧ ids'.length = ids.length)
      fun _ _ => True := by
  refine yields_mapM (fun done ids' d' => d.Adds d' ∧ (∀ id ∈ done, d'.Knows id) ∧
    ids'.length = done.length) ids ⟨.refl d, fun _ mem => (nomatch mem), rfl⟩
    fun done id _ ids' d₁ _ ⟨adds, known, length⟩ => ?_
  have spec := makes_admitEvents (fun e mem => (stand e mem).mono adds.extends) id
  refine (spec (adds.grows.sound sound)).mono ?_ fun _ _ _ => trivial
  rintro id' d₂ ⟨more, g', _, eq⟩
  obtain ⟨g, here, _⟩ := except_bind_eq_ok.1 (eq _ d₂.uris.fits_naming)
  have knows : d₂.Knows id := ⟨g, more.holds (read_eq_ok_iff.1 here)⟩
  refine ⟨adds.trans more, fun i mem => ?_, by simp [length]⟩
  rcases List.mem_append.1 mem with old | new
  · exact (known i old).grow more.grows
  · exact List.mem_singleton.1 new ▸ knows

theorem yields_chain (ids : List GrammarId) (sound : d.store.Sound) :
    Yields (chain ids) d
      (fun id d' => d.Adds d' ∧ (∀ i ∈ ids, d.Knows i) ∧ d'.Knows id) fun _ _ => True := by
  refine (makes_chain ids sound).mono ?_ fun _ _ _ => trivial
  rintro id d' ⟨adds, g, here, eq⟩
  obtain ⟨gs, known, _⟩ := except_bind_eq_ok.1 (eq _ d'.uris.fits_naming)
  exact ⟨adds, knows_of_mapM_read known, g, here⟩

/-- The content of a type without attributes is handed through. In all other cases the numbers are
looked up, with a wildcard after some grammars have been added. -/
theorem yields_complexContent (uses : List GrammarId) (wildcard : Option Wildcard)
    (content : GrammarId) (sound : d.store.Sound) :
    Yields (complexContent uses wildcard content) d (fun id d' =>
        (uses = [] ∧ wildcard = none ∧ id = content ∧ d' = d) ∨
        (d.Adds d' ∧ d'.Knows id ∧ ∀ i ∈ uses ++ [content],
          d'.Knows i ∧ (wildcard = none → d.Knows i)))
      fun _ _ => True := by
  cases wildcard with
  | none =>
    cases uses with
    | nil => exact .inl ⟨rfl, rfl, rfl, rfl⟩
    | cons first rest =>
      refine (yields_chain (first :: rest ++ [content]) sound).mono ?_ fun _ _ _ => trivial
      exact fun id d' ⟨adds, known, here⟩ =>
        .inr ⟨adds, here, fun i mem => ⟨(known i mem).grow adds.grows, fun _ => known i mem⟩⟩
  | some wildcard =>
    refine (makes_admittedEvents wildcard sound).bind_ok ?_
    rintro events d₁ ⟨adds₁, _, ⟨_, _, stand⟩, _⟩
    have sound₁ := adds₁.grows.sound sound
    refine (makes_emptyContent.adds sound₁).bind_ok fun last d₂ adds₂ => ?_
    have sound₂ := adds₂.grows.sound sound₁
    -- every use is looked up by the copy of it that admits the wildcard
    refine (yields_admitAll (uses ++ [last]) sound₂ fun e mem =>
      (stand e mem).mono adds₂.extends).bind ?_
    rintro segments d₃ ⟨adds₃, known, length⟩
    have some : segments.isEmpty = false := by
      rw [List.isEmpty_eq_false_iff, ← List.length_pos_iff, length]
      simp
    simp only [some, Bool.false_eq_true, if_false]
    refine (yields_chain (segments ++ [content]) (adds₃.grows.sound sound₂)).mono ?_
      fun _ _ _ => trivial
    rintro id d₄ ⟨adds₄, known', here⟩
    refine .inr ⟨((adds₁.trans adds₂).trans adds₃).trans adds₄, here, fun i mem => ⟨?_, nofun⟩⟩
    rcases List.mem_append.1 mem with use | last
    · exact (known i (List.mem_append_left _ use)).grow adds₄.grows
    · exact (known' i (List.mem_append_right _ last)).grow adds₄.grows

theorem yields_complexEmpty (uses : List GrammarId) (wildcard : Option Wildcard)
    (sound : d.store.Sound) :
    Yields (complexEmpty uses wildcard) d (fun id d' => d'.Knows id ∧ ∀ i ∈ uses, d'.Knows i)
      fun _ _ => True := by
  refine (makes_emptyContent sound).bind_ok ?_
  rintro last d₁ ⟨adds, g, here, _⟩
  refine (yields_complexContent uses wildcard last (adds.grows.sound sound)).mono ?_
    fun _ _ _ => trivial
  rintro id d' (⟨rfl, _, rfl, rfl⟩ | ⟨_, known, all⟩)
  · exact ⟨⟨g, here⟩, fun _ mem => (nomatch mem)⟩
  · exact ⟨known, fun i mem => (all i (List.mem_append_left _ mem)).1⟩

theorem yields_admittedEvents_grammars (wildcard : Wildcard) :
    Yields (admittedEvents wildcard) d (fun _ d' => d'.grammars = d.grammars) fun _ _ => True := by
  cases wildcard with
  | any | except _ => exact yields_pure rfl
  | among uris =>
    refine Yields.bind (M := fun _ d' => d'.grammars = d.grammars) ?_ fun _ _ same => yields_pure same
    unfold namespaceRows
    split
    · exact yields_throw trivial
    · refine yields_mapM (fun _ _ (d' : Draft) => d'.grammars = d.grammars) uris rfl
        fun _ uri _ _ d' _ same => ?_
      refine (yields_onTables (UriTable.yields_enterUri uri d'.uris)).mono ?_ fun _ _ _ => trivial
      rintro _ d'' ⟨frame, _⟩
      rw [frame]
      exact same

theorem handles_admitAttributes (id : GrammarId) (wildcard : Wildcard) :
    Handles (admitAttributes id wildcard) d [id] fun id => [id] := by
  intro sound _
  refine ((makes_admittedEvents wildcard sound).and (yields_admittedEvents_grammars wildcard)).bind_ok ?_
  rintro events d₁ ⟨⟨adds, _, ⟨_, _, stand⟩, _⟩, same⟩
  refine (makes_admitEvents stand id (adds.grows.sound sound)).mono ?_ fun _ _ _ => trivial
  rintro id' d₂ ⟨_, g', here, eq⟩
  obtain ⟨g, known, _⟩ := except_bind_eq_ok.1 (eq _ d₂.uris.fits_naming)
  refine ⟨List.forall_mem_singleton.2 ⟨g, ?_⟩, List.forall_mem_singleton.2 ⟨g', here⟩⟩
  rw [Holds, ← same]
  exact read_eq_ok_iff.1 known

theorem handles_declareLocal (name : NameRef) (type : GrammarId) :
    Handles (declareLocal name type) d [type] fun id => [id] := by
  intro sound filed
  refine yields_get_bind ?_
  split
  · next shared found =>
    obtain ⟨e, mem, _, rfl, rfl⟩ := exists_of_localGrammar? found
    obtain ⟨g, known, copy⟩ := filed.locals e mem
    exact ⟨List.forall_mem_singleton.2 ⟨g, known⟩, List.forall_mem_singleton.2 ⟨g, copy⟩⟩
  · refine (Handles.of_makes_read (makes_forElement type) sound filed).bind fun id d' here => ?_
    exact here

theorem handles_declareGlobal (name : QName) (id : GrammarId) :
    Handles (declareGlobal name id) d [id] fun _ => [] := by
  refine fun sound _ => yields_grammar_bind (fun _ => trivial) fun g here => ?_
  refine yields_bind_any fun _ _ => ?_
  exact ⟨List.forall_mem_singleton.2 ⟨g, here⟩, fun _ mem => (nomatch mem)⟩

theorem forall_mem_pair {P : GrammarId → Prop} {pair : GrammarPair} :
    (∀ id ∈ [pair.grammar, pair.empty], P id) ↔ P pair.grammar ∧ P pair.empty := by
  simp

theorem handles_declareType (name : QName) (pair : GrammarPair) :
    Handles (declareType name pair) d [pair.grammar, pair.empty] fun _ => [] :=
  fun _ _ => (yields_declareType name pair).mono
    (fun _ _ here => ⟨forall_mem_pair.2 here.1, fun _ mem => (nomatch mem)⟩) fun _ _ _ => trivial

/-- A type that is registered has known grammars; a new one is checked when it is registered. -/
theorem handles_onceFor {name : Option QName} {build : Drafting GrammarPair}
    (spec : Handles build d [] fun pair => [pair.grammar, pair.empty]) :
    Handles (onceFor name build) d [] fun pair => [pair.grammar, pair.empty] := by
  cases name with
  | none => exact spec
  | some name =>
    intro sound filed
    refine yields_get_bind ?_
    split
    · next pair found =>
      exact ⟨fun _ mem => (nomatch mem), forall_mem_pair.2 (filed.types name pair found)⟩
    split
    · exact yields_throw trivial
    -- whatever was built, the registration looks both of its grammars up
    refine yields_bind_any fun pair d₁ => (yields_declareType name pair).bind_ok ?_
    rintro _ d₂ ⟨known, rfl⟩
    exact ⟨fun _ mem => (nomatch mem), forall_mem_pair.2 known⟩

theorem handles_typeGrammars (t : TypeDef) :
    Handles (typeGrammars t) d [] fun pair => [pair.grammar, pair.empty] := by
  have known {pair : GrammarPair} {gs : Grammar × Grammar} {d' : Draft} (here : d'.HoldsPair pair gs) :
      ∀ id ∈ [pair.grammar, pair.empty], d'.Knows id := forall_mem_pair.2 ⟨⟨_, here.1⟩, _, here.2⟩
  cases t with
  | simple name variety builtIn =>
    rw [typeGrammars]
    refine handles_onceFor fun sound _ => ?_
    refine (makes_varietyGrammars {} name variety builtIn sound).mono ?_ fun _ _ _ => trivial
    exact fun pair d' ⟨_, gs, here, _⟩ => ⟨fun _ mem => (nomatch mem), known here⟩
  | complex name attributes wildcard content =>
    rw [typeGrammars]
    refine handles_onceFor fun sound _ => ?_
    refine (makes_attributesOf attributes sound).bind_ok ?_
    rintro uses d₁ ⟨adds, gs, usesHere, _⟩
    have sound₁ := adds.grows.sound sound
    refine (walks_contentGrammar content d₁ sound₁).bind_ok ?_
    rintro id d₂ ⟨walked, _, g, here, _⟩
    have usesHere : d₂.HoldsAll uses gs := usesHere.imp fun _ _ h => walked.grows.grammars h
    refine (makes_complexPair wildcard usesHere here (walked.grows.sound sound₁)).mono ?_
      fun _ _ _ => trivial
    exact fun pair d' ⟨_, _, here, _⟩ => ⟨fun _ mem => (nomatch mem), known here⟩

theorem handles_elementGrammar (decl : ElementDecl) :
    Handles (elementGrammar decl) d [] fun id => [id] := by
  have copies (id : GrammarId) (d' : Draft) (sound : d'.store.Sound) :
      Yields (forElement id) d' (fun id d'' => (∀ i ∈ [], d.Knows i) ∧ ∀ i ∈ [id], d''.Knows i)
        fun _ _ => True := by
    refine (makes_forElement id sound).mono ?_ fun _ _ _ => trivial
    exact fun id d'' ⟨_, g, here, _⟩ =>
      ⟨fun _ mem => (nomatch mem), List.forall_mem_singleton.2 ⟨g, here⟩⟩
  intro sound _
  unfold elementGrammar
  split
  · refine (walks_typeGrammars _ d sound).bind_ok ?_
    exact fun pair d' here => copies pair.grammar d' (here.1.grows.sound sound)
  · refine (walks_anyTypeGrammar sound).bind_ok ?_
    exact fun id d' here => copies id d' (here.1.grows.sound sound)

end Draft

namespace Operation

/-- The numbers of grammars that an operation is asked with. -/
def arguments : Operation → List GrammarId
  | .chain ids | .sequence ids | .choice ids | .all ids | .complexEmpty ids _ => ids
  | .complexContent ids _ id => ids ++ [id]
  | .admitAttributes id _ | .particle _ _ id | .mixed id | .forElement id | .declareLocal _ id
  | .declareGlobal _ id => [id]
  | .declareType _ pair => [pair.grammar, pair.empty]
  | .simpleContent _ | .emptyContent | .attributeUse _ _ _ | .elementTerm _ | .wildcardTerm _
  | .anyContent | .anyAttributes | .typeGrammars _ | .elementGrammar _ => []

/-- Whether an operation adds grammars of its own before it looks up those that it was asked with. -/
def looksLate : Operation → Bool
  | .complexContent _ (some _) _ | .complexEmpty _ _ => true
  | _ => false

end Operation

/-- The numbers of grammars that an operation has given back. -/
def Outcome.grammars : Outcome → List GrammarId
  | .grammar id => [id]
  | .type pair => [pair.grammar, pair.empty]
  | .done => []

variable {d d' : Draft} {op : Operation} {outcome : Outcome}

/-- All operations but those that put attributes before a content look up their arguments before they
change anything. -/
theorem Operation.handled (op : Operation)
    (full : ∀ uses wildcard id, op ≠ .complexContent uses wildcard id)
    (empty : ∀ uses wildcard, op ≠ .complexEmpty uses wildcard) :
    Handles op.run d op.arguments Outcome.grammars := by
  cases op with
  | complexContent uses wildcard id => exact absurd rfl (full uses wildcard id)
  | complexEmpty uses wildcard => exact absurd rfl (empty uses wildcard)
  | simpleContent builtIn =>
    exact (.outcome (.of_makes_none (makes_simpleContent builtIn)) rfl fun _ => rfl)
  | emptyContent => exact (.outcome (.of_makes_none makes_emptyContent) rfl fun _ => rfl)
  | attributeUse required name builtIn =>
    exact (.outcome (.of_makes_none (makes_attributeUse ⟨name, required, builtIn⟩)) rfl
      fun _ => rfl)
  | elementTerm name =>
    exact (.outcome (.of_makes_none (makes_elementTerm name)) rfl fun _ => rfl)
  | wildcardTerm wildcard =>
    exact (.outcome (.of_makes_none (makes_wildcardTerm wildcard)) rfl fun _ => rfl)
  | chain parts =>
    exact (.outcome (.of_makes_readAll (makes_chain parts)) rfl fun _ => rfl)
  | admitAttributes id wildcard =>
    exact (.outcome (handles_admitAttributes id wildcard) rfl fun _ => rfl)
  | anyContent => exact (.outcome (.of_makes_none makes_anyContent) rfl fun _ => rfl)
  | anyAttributes =>
    exact (.outcome (.of_makes_none makes_anyAttributes) rfl fun _ => rfl)
  | particle minOccurs maxOccurs term =>
    exact (.outcome (.of_makes_read (makes_particle minOccurs maxOccurs term)) rfl
      fun _ => rfl)
  | sequence terms =>
    exact (.outcome (.of_makes_readAll (makes_sequence terms)) rfl fun _ => rfl)
  | choice terms =>
    exact (.outcome (.of_makes_readAll (makes_choice terms)) rfl fun _ => rfl)
  | all terms => exact (.outcome (.of_makes_readAll (makes_all terms)) rfl fun _ => rfl)
  | mixed content =>
    exact (.outcome (.of_makes_read (makes_mixed content)) rfl fun _ => rfl)
  | forElement type =>
    exact (.outcome (.of_makes_read (makes_forElement type)) rfl fun _ => rfl)
  | declareLocal name type =>
    exact (.outcome (handles_declareLocal name type) rfl fun _ => rfl)
  | declareGlobal name id =>
    exact (.outcome (handles_declareGlobal name id) rfl fun _ => rfl)
  | declareType name pair =>
    exact (.outcome (handles_declareType name pair) rfl fun _ => rfl)
  | typeGrammars type =>
    exact (.outcome (handles_typeGrammars type) rfl fun _ => rfl)
  | elementGrammar decl =>
    exact (.outcome (handles_elementGrammar decl) rfl fun _ => rfl)

namespace Draft

theorem handled_complexContent {uses : List GrammarId} {wildcard : Option Wildcard}
    {content : GrammarId} (sound : d.store.Sound)
    (run : (Operation.complexContent uses wildcard content).run d = .ok outcome d') :
    ((∀ id ∈ uses ++ [content], d'.Knows id ∧ (wildcard = none → d.Knows id)) ∧
        ∀ id ∈ outcome.grammars, d'.Knows id) ∨
      uses = [] ∧ wildcard = none ∧ ¬d.Knows content ∧ outcome = .grammar content ∧ d' = d := by
  obtain ⟨id, _, run, same⟩ := bind_eq_ok.1 run
  cases same
  rcases (yields_complexContent uses wildcard content sound).ok_of_eq run with
    ⟨rfl, rfl, rfl, rfl⟩ | ⟨_, known, all⟩
  · by_cases known : d'.Knows id
    · exact .inl ⟨List.forall_mem_singleton.2 ⟨known, fun _ => known⟩,
        List.forall_mem_singleton.2 known⟩
    · exact .inr ⟨rfl, rfl, known, rfl, rfl⟩
  · exact .inl ⟨all, List.forall_mem_singleton.2 known⟩

theorem handled_complexEmpty {uses : List GrammarId} {wildcard : Option Wildcard}
    (sound : d.store.Sound)
    (run : (Operation.complexEmpty uses wildcard).run d = .ok outcome d') :
    (∀ id ∈ uses, d'.Knows id) ∧ ∀ id ∈ outcome.grammars, d'.Knows id := by
  obtain ⟨id, _, run, same⟩ := bind_eq_ok.1 run
  cases same
  obtain ⟨known, all⟩ := (yields_complexEmpty uses wildcard sound).ok_of_eq run
  exact ⟨all, List.forall_mem_singleton.2 known⟩

/-- Where an operation succeeds, the numbers that it was asked with are those of grammars, at the
latest when they are looked up, and the number that it gives back is that of a grammar. The only
exception is a type with neither attributes nor a wildcard: the number of its content is given back
whether it stands for a grammar or not. -/
theorem Reachable.handles (reachable : d.Reachable) (run : op.run d = .ok outcome d') :
    ((∀ id ∈ op.arguments, d'.Knows id ∧ (op.looksLate = false → d.Knows id)) ∧
        ∀ id ∈ outcome.grammars, d'.Knows id) ∨
      ∃ content, op = .complexContent [] none content ∧ ¬d.Knows content ∧
        outcome = .grammar content ∧ d' = d := by
  have sound := reachable.sound
  -- apart from the others: the two that add grammars of their own before they look
  by_cases full : ∃ uses wildcard id, op = .complexContent uses wildcard id
  · obtain ⟨uses, wildcard, content, rfl⟩ := full
    rcases handled_complexContent sound run with ⟨all, given⟩ | ⟨rfl, rfl, unknown, here⟩
    · refine .inl ⟨fun i mem => ⟨(all i mem).1, fun early => (all i mem).2 ?_⟩, given⟩
      cases wildcard with
      | none => rfl
      | some _ => cases early
    · exact .inr ⟨content, rfl, unknown, here⟩
  by_cases empty : ∃ uses wildcard, op = .complexEmpty uses wildcard
  · obtain ⟨uses, wildcard, rfl⟩ := empty
    obtain ⟨all, given⟩ := handled_complexEmpty sound run
    exact .inl ⟨fun i mem => ⟨all i mem, nofun⟩, given⟩
  obtain ⟨asked, given⟩ := (op.handled (fun uses w id same => full ⟨uses, w, id, same⟩)
    (fun uses w same => empty ⟨uses, w, same⟩) sound reachable.filed).ok_of_eq run
  have walked := op.walked sound
  rw [Operation.after, run] at walked
  exact .inl ⟨fun id mem => ⟨(asked id mem).grow walked.grows, fun _ => asked id mem⟩, given⟩

section

def single : Draft := Operation.emptyContent.after (start {})

theorem single_handles : single.Reachable ∧
    (Operation.sequence [0]).run single = .ok (.grammar 0) single ∧ single.Knows 0 := by
  have reachable : single.Reachable := .after (.start {}) _
  have run : (Operation.sequence [0]).run single = .ok (.grammar 0) single := rfl
  refine ⟨reachable, run, ?_⟩
  rcases reachable.handles run with ⟨_, given⟩ | ⟨_, other, _⟩
  · exact given 0 List.mem_cons_self
  · cases other

theorem not_knows_start (options : Options) (id : GrammarId) : ¬(start options).Knows id := by
  rintro ⟨g, here⟩
  exact nomatch here

/-- Nothing stands for 7, and yet it is given back; and 0 is taken for a grammar that the operation
adds itself. -/
theorem unknown_taken : (start {}).Reachable ∧ ¬(start {}).Knows 7 ∧ ¬(start {}).Knows 0 ∧
    (Operation.complexContent [] none 7).run (start {}) = .ok (.grammar 7) (start {}) ∧
    ∃ d, (Operation.complexEmpty [0] none).run (start {}) = .ok (.grammar 1) d :=
  ⟨.start {}, not_knows_start {} 7, not_knows_start {} 0, rfl,
    (Operation.complexEmpty [0] none).after (start {}), by cbv⟩

end

end Draft

end ExiSchema
