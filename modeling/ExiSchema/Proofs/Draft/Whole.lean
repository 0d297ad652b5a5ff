import ExiSchema.Definitions
import ExiSchema.Proofs.Draft.Compiling
import ExiSchema.Proofs.Draft.Recording
import ExiSchema.Reordering

/-!
A whole type model whose types have one definition for each name, entered into a draft from which
nothing may be left out.
-/

set_option autoImplicit false

namespace ExiSchema

namespace Draft

variable {C : Catalog} {d d' : Draft}

theorem yields_orSkip {α : Type} {part : Part} {action : Drafting α} {ok : α → Draft → Prop}
    {fails : Fault → Draft → Prop} (spec : Yields action d ok fails)
    (stays : ∀ f d', fails f d' → d'.options.skipUnsupported = false) :
    Yields (orSkip part action) d (fun a d' => ∃ x, a = some x ∧ ok x d') fails := by
  refine yields_orSkip_of (spec.mono_ok fun a _ good => ⟨a, rfl, good⟩) (fun f d' bad _ may => ?_)
    fun _ _ bad _ => bad
  rw [stays f d' bad] at may
  cases may

theorem notes_orSkip {α β : Type} {part : Part} {action : Drafting α} {ms : List Mention}
    {ts : List TypeDef} {R : Draft → α → β → Prop} {built : Naming → Except Fault β}
    (off : C.options.skipUnsupported = false) (spec : Notes C action d ms ts R built) :
    Notes C (orSkip part action) d ms ts (fun d' a b => ∃ x, a = some x ∧ R d' x b) built := by
  intro sound before recorded
  refine (yields_orSkip (spec sound before recorded) fun f d' bad => ?_).mono_ok ?_
  · rw [bad.1.options, recorded.options, off]
  · rintro _ d' ⟨a, rfl, noted, b, here, eq⟩
    exact ⟨noted, b, ⟨a, rfl, here⟩, eq⟩

theorem inside_of_idle (idle : d.active = []) (n : Nat) : d.Inside C n := by
  intro name mem
  rw [idle] at mem
  cases mem

theorem notes_addTypes (off : C.options.skipUnsupported = false) : ∀ (ts : List TypeDef) (d : Draft),
    d.active = [] → (∀ t ∈ ts.flatMap TypeDef.types, C.Has t) →
    Notes C (addTypes ts) d (ts.flatMap TypeDef.ownMentions) (ts.flatMap TypeDef.types)
      (fun d' _ (_ : Unit) => d'.stack = d.stack) fun _ => .ok ()
  | [], d, _, _ => .pure rfl
  | t :: ts, d, idle, has => by
    rw [List.flatMap_cons] at has
    rw [addTypes, List.flatMap_cons, List.flatMap_cons]
    have first : Notes C (orSkip (.type t.name?) (typeGrammars t)) d t.ownMentions t.types _ _ :=
      (notes_orSkip off (notes_typeGrammars t d (fun t' mem => has t' (List.mem_append_left _ mem))
        (inside_of_idle idle _))).absorb fun ν f bad =>
          ⟨t, List.mem_cons_self, fun builds => by
            obtain ⟨gs, good⟩ := builds.grammars ν
            cases good.symm.trans bad⟩
    refine first.bind (m := fun _ _ => .ok ()) ?_
    rintro _ _ d₁ walked _ ⟨_, _, _, stack, _⟩
    exact (notes_addTypes off ts d₁ (walked.active.trans idle)
      fun t' mem => has t' (List.mem_append_right _ mem)).mono
        fun _ _ _ _ _ stack' => stack'.trans stack

theorem typesOf_cons_inner (decl : ElementDecl) :
    typesOf (decl :: decl.inner) = decl.type.elim [] TypeDef.types := by
  obtain ⟨name, substitutes, _ | type⟩ := decl <;> rfl

theorem notes_forElement {type : GrammarId} {g : Grammar} (here : d.Holds type g) :
    Notes C (forElement type) d [] [] (fun d' id g => d'.stack = d.stack ∧ d'.Holds id g)
      fun _ => .ok g := by
  intro sound before recorded
  refine (forElement_yields sound here).mono ?_ ?_
  · rintro id d' ⟨adds, kept, holds⟩
    rw [List.append_nil]
    exact ⟨⟨adds.walked.1, kept.keeps, recorded.keep_quiet kept, List.forall_mem_nil _⟩, g,
      ⟨adds.walked.2, holds⟩, fun _ _ => rfl⟩
  · rintro f d' ⟨adds, memory⟩
    exact ⟨adds.walked.1, .inl memory⟩

theorem elementGrammar_eq (decl : ElementDecl) :
    elementGrammar decl = held decl.type >>= forElement := by
  obtain ⟨name, substitutes, _ | type⟩ := decl
  · rfl
  · simp only [elementGrammar, held, bind_assoc, pure_bind]

theorem notes_held {type : Option TypeDef} (idle : d.active = [])
    (has : ∀ t ∈ type.elim [] TypeDef.types, C.Has t) :
    Notes C (held type) d (type.elim [] TypeDef.ownMentions) (type.elim [] TypeDef.types)
      (fun d' id g => d'.stack = d.stack ∧ d'.Holds id g) (heldGrammar C.options type) := by
  cases type with
  | none => exact notes_anyTypeGrammar.mono fun _ _ _ _ _ ⟨stack, here, _⟩ => ⟨stack, here⟩
  | some type =>
    have spec : Notes C (typeGrammars type >>= fun pair => pure pair.grammar) d _ _ _ _ :=
      (notes_typeGrammars type d has (inside_of_idle idle _)).bind_last
        (S := fun d' id g => d'.stack = d.stack ∧ d'.Holds id g) (m := fun _ gs => .ok gs.1)
        fun pair gs d₁ _ _ ⟨stack, holds, _⟩ => .pure ⟨stack, holds.1⟩
    refine Notes.congr spec fun ν => ?_
    change (type.grammars C.options ν).map Prod.fst = _
    cases type.grammars C.options ν <;> rfl

theorem notes_elementGrammar {decl : ElementDecl} (idle : d.active = [])
    (has : ∀ t ∈ typesOf (decl :: decl.inner), C.Has t) :
    Notes C (elementGrammar decl) d (decl.type.elim [] TypeDef.ownMentions)
      (typesOf (decl :: decl.inner)) (fun d' id g => d'.stack = d.stack ∧ d'.Holds id g)
      (heldGrammar C.options decl.type) := by
  rw [typesOf_cons_inner] at has ⊢
  rw [elementGrammar_eq]
  refine Notes.congr ((notes_held idle has).bind_last (m := fun _ g => .ok g)
    (S := fun d' id g => d'.stack = d.stack ∧ d'.Holds id g)
    fun type g d₁ _ _ ⟨stack, here⟩ => (notes_forElement here).mono
      fun _ _ _ _ _ ⟨stack', holds⟩ => ⟨stack'.trans stack, holds⟩) fun ν => ?_
  cases heldGrammar C.options decl.type ν <;> rfl

/-- The entry of a global element: its name, and a grammar of the type that counts for it. -/
structure Lists (d : Draft) (o : Options) (type : ElementDecl → Option TypeDef) (e : GlobalElement)
    (decl : ElementDecl) : Prop where
  name : d.uris.find? decl.name = some e.name
  grammar : d.Bears e.grammar (heldGrammar o (type decl))

theorem Lists.grow {o : Options} {type : ElementDecl → Option TypeDef} {e : GlobalElement}
    {decl : ElementDecl} (lists : d.Lists o type e decl) (grows : d.store.Grows d'.store) :
    d'.Lists o type e decl :=
  ⟨grows.uris.extends.find? lists.name, lists.grammar.grow grows⟩

/-- The elements have been entered behind those that were there. -/
structure Entered (C : Catalog) (d d' : Draft) (es : List ElementDecl) (ms : List Mention) : Prop where
  walked : d.Walked d'
  stack : d'.stack = d.stack
  recorded : d'.Recorded C ms
  typeIds : ∀ o id, d.typeId? o = some id → d'.typeId? o = some id
  covers : ∀ t ∈ typesOf (es.flatMap fun e => e :: e.inner), d'.Covers C t
  checked : ∀ e ∈ es, e.name.check = .ok ()
  globals : ∃ entries, d'.globals.toList = d.globals.toList ++ entries ∧
    List.Forall₂ (d'.Lists C.options ElementDecl.type) entries es

/-- Why elements cannot be entered: memory, a name, or a type of theirs that cannot be built. -/
def Refuses (C : Catalog) (es : List ElementDecl) (f : Fault) : Prop :=
  f = .memoryAllocation ∨ (∃ e ∈ es, e.name.check ≠ .ok ()) ∨
    ∃ t ∈ typesOf (es.flatMap fun e => e :: e.inner), ¬t.Builds C.options

theorem Refuses.mono {es es' : List ElementDecl} {f : Fault} (refuses : Refuses C es f)
    (more : es ⊆ es') : Refuses C es' f := by
  refine refuses.imp_right (Or.imp (fun ⟨e, mem, bad⟩ => ⟨e, more mem, bad⟩) ?_)
  rintro ⟨t, mem, bad⟩
  obtain ⟨e, inner, type⟩ := List.mem_filterMap.1 mem
  obtain ⟨decl, outer, inner⟩ := List.mem_flatMap.1 inner
  exact ⟨t, List.mem_filterMap.2 ⟨e, List.mem_flatMap.2 ⟨decl, more outer, inner⟩, type⟩, bad⟩

theorem Refuses.of_types {e : ElementDecl} {es : List ElementDecl} {f : Fault}
    (bad : ∃ t ∈ typesOf (e :: e.inner), ¬t.Builds C.options) : Refuses C (e :: es) f := by
  obtain ⟨t, mem, bad⟩ := bad
  refine .inr (.inr ⟨t, ?_, bad⟩)
  rw [List.flatMap_cons, typesOf_append]
  exact List.mem_append_left _ mem

theorem exists_of_heldGrammar_error {options : Options} {e : ElementDecl} {ν : Naming} {f : Fault}
    (failed : heldGrammar options e.type ν = .error f) :
    ∃ t ∈ typesOf (e :: e.inner), ¬t.Builds options := by
  obtain ⟨name, substitutes, _ | type⟩ := e
  · cases failed
  · refine ⟨type, List.mem_cons_self, fun builds => ?_⟩
    obtain ⟨gs, good⟩ := builds.grammars ν
    dsimp only [heldGrammar] at failed
    rw [good] at failed
    cases failed

theorem Recorded.withGlobals {ms : List Mention} (recorded : d.Recorded C ms)
    (globals : Array GlobalElement) : Recorded C { d with globals } ms := by
  have grows : d.store.Grows (Draft.store { d with globals }) := .refl _
  refine ⟨recorded.options, recorded.pending, recorded.distinct, fun name pair here => ?_,
    recorded.any, recorded.apart, recorded.written.names, ?_⟩
  · obtain ⟨t, stands⟩ := recorded.types name pair here
    exact ⟨t, stands.keep grows fun _ _ here => here⟩
  · obtain ⟨listed, stand, listing⟩ := recorded.written.locals
    exact ⟨listed, stand.imp fun _ _ here => here.keep grows (fun _ _ here => here)
      fun o here => ⟨o, here⟩, listing⟩

theorem declareGlobal_yields {name : QName} {id : GrammarId} {g : Grammar} (sound : d.store.Sound)
    (here : d.Holds id g) :
    Yields (declareGlobal name id) d
      (fun _ d' => ∃ d₁ ref, d.Adds d₁ ∧ d.Kept d₁ [.ofName name] ∧
        d₁.uris.find? name = some ref ∧ name.check = .ok () ∧
        d' = { d₁ with globals := d₁.globals.push ⟨ref, id⟩ })
      fun f _ => f = .memoryAllocation ∨ name.check ≠ .ok () := by
  refine yields_reads_bind here.grammar_eq_ok ?_
  refine Yields.bind ((Yields.and (makes_enterName name sound) (enters_enterName name)).mono
    (fun _ _ good => good) ?_) ?_
  · rintro f d' ⟨⟨_, memory | bad⟩, _⟩
    · exact .inl memory
    · refine .inr fun checked => ?_
      have failed := bad _ d'.uris.fits_naming
      rw [checked] at failed
      cases failed
  · rintro ref d₁ ⟨⟨adds, _, ⟨_, found⟩, built⟩, names, _⟩
    obtain ⟨_, checked, _⟩ := except_bind_eq_ok.1 (built _ d₁.uris.fits_naming)
    exact ⟨d₁, ref, adds, adds.kept names, found, checked, rfl⟩

theorem yields_declareGlobal {ms : List Mention} {decl : ElementDecl} {id : GrammarId}
    (sound : d.store.Sound) (recorded : d.Recorded C ms)
    (bears : d.Bears id (heldGrammar C.options decl.type)) :
    Yields (declareGlobal decl.name id) d
      (fun _ d' => d.Walked d' ∧ d'.stack = d.stack ∧
        d'.Recorded C (ms ++ enterAll [.ofName decl.name]) ∧
        (∀ o id, d.typeId? o = some id → d'.typeId? o = some id) ∧
        decl.name.check = .ok () ∧
        ∃ e, d'.globals.toList = d.globals.toList ++ [e] ∧ d'.Lists C.options ElementDecl.type e decl)
      fun f _ => f = .memoryAllocation ∨ decl.name.check ≠ .ok () := by
  obtain ⟨g, here, eq⟩ := bears
  refine (declareGlobal_yields sound here).mono_ok ?_
  rintro _ _ ⟨d₁, ref, adds, kept, found, checked, rfl⟩
  have walked := adds.walked.1
  refine ⟨⟨walked.grows, walked.stack, walked.active, walked.options⟩, adds.walked.2,
    (recorded.keep kept).withGlobals _, fun o id here => (kept.typeId? o).trans here, checked,
    ⟨ref, id⟩, ?_, found, g, adds.holds here, fun ν fits => eq ν (fits.of_extends adds.extends)⟩
  rw [← kept.globals]
  exact Array.toList_push

theorem Entered.trans {e : Draft} {es es' : List ElementDecl} {ms ms' : List Mention}
    (first : d.Entered C d' es ms) (second : d'.Entered C e es' ms') :
    d.Entered C e (es ++ es') ms' := by
  obtain ⟨entries, appended, standing⟩ := first.globals
  obtain ⟨entries', appended', standing'⟩ := second.globals
  refine ⟨first.walked.trans second.walked, second.stack.trans first.stack, second.recorded,
    fun o id here => second.typeIds o id (first.typeIds o id here), ?_,
    List.forall_mem_append.2 ⟨first.checked, second.checked⟩, entries ++ entries', ?_, ?_⟩
  · rw [List.flatMap_append, typesOf_append]
    exact List.forall_mem_append.2
      ⟨fun t mem => (first.covers t mem).keep second.typeIds, second.covers⟩
  · rw [appended', appended, List.append_assoc]
  · exact List.rel_append (standing.imp fun _ _ here => here.grow second.walked.grows) standing'

theorem addElements_cons (e : ElementDecl) (es : List ElementDecl) :
    addElements (e :: es) = addElements [e] >>= fun _ => addElements es := by
  simp only [addElements, bind_assoc]
  congr 1
  funext id
  cases id <;> simp only [bind_assoc, pure_bind]

theorem yields_addElement (off : C.options.skipUnsupported = false) {e : ElementDecl}
    {before : List Mention} (sound : d.store.Sound) (recorded : d.Recorded C before)
    (idle : d.active = []) (has : ∀ t ∈ typesOf (e :: e.inner), C.Has t) :
    Yields (addElements [e]) d (fun _ d' => d.Entered C d' [e] (before ++ e.globalMentions))
      fun f _ => Refuses C [e] f := by
  rw [addElements]
  refine ((notes_orSkip off (notes_elementGrammar idle has) sound before recorded).mono
    (fun _ _ good => good) ?_).bind ?_
  · rintro f d' ⟨_, memory | bad | bad⟩
    · exact .inl memory
    · obtain ⟨f, failed⟩ := bad _ d'.uris.fits_naming
      exact .of_types (exists_of_heldGrammar_error failed)
    · exact .of_types bad
  · rintro _ d₁ ⟨noted, g, ⟨id, rfl, stack, here⟩, eq⟩
    refine ((yields_declareGlobal (noted.walked.grows.sound sound) noted.recorded
      ⟨g, here, eq⟩).mono_fails ?_).bind ?_
    · rintro f d' (memory | bad)
      · exact .inl memory
      · exact .inr (.inl ⟨e, List.mem_cons_self, bad⟩)
    · rintro _ d₂ ⟨walked, stack', recorded', typeIds, checked, entry, pushed, lists⟩
      refine ⟨noted.walked.trans walked, stack'.trans stack, ?_,
        fun o id here => typeIds o id (noted.keeps.typeIds o id here), ?_,
        List.forall_mem_singleton.2 checked, [entry], ?_, .cons lists .nil⟩
      · rwa [List.append_assoc] at recorded'
      · rw [List.flatMap_singleton]
        exact fun t mem => (noted.covers t mem).keep typeIds
      · rw [pushed, noted.keeps.globals]

theorem yields_addElements (off : C.options.skipUnsupported = false) :
    ∀ (es : List ElementDecl) (d : Draft) (before : List Mention), d.store.Sound →
      d.Recorded C before → d.active = [] →
      (∀ t ∈ typesOf (es.flatMap fun e => e :: e.inner), C.Has t) →
      Yields (addElements es) d
        (fun _ d' => d.Entered C d' es (before ++ es.flatMap ElementDecl.globalMentions))
        fun f _ => Refuses C es f
  | [], d, before, _, recorded, _, _ => by
    refine yields_pure ⟨.refl d, rfl, ?_, fun _ _ here => here, ?_, ?_, [], ?_, .nil⟩
    · rwa [List.flatMap_nil, List.append_nil]
    · exact List.forall_mem_nil _
    · exact List.forall_mem_nil _
    · rw [List.append_nil]
  | e :: es, d, before, sound, recorded, idle, has => by
    rw [List.flatMap_cons, typesOf_append] at has
    rw [addElements_cons, List.flatMap_cons, ← List.append_assoc]
    refine ((yields_addElement off sound recorded idle fun t mem =>
      has t (List.mem_append_left _ mem)).mono_fails fun _ _ refuses =>
        refuses.mono (List.cons_subset_cons e (List.nil_subset es))).bind ?_
    rintro _ d₁ first
    exact (yields_addElements off es d₁ _ (first.walked.grows.sound sound) first.recorded
      (first.walked.active.trans idle) fun t mem => has t (List.mem_append_right _ mem)).mono
        (fun _ _ rest => first.trans rest) fun _ _ refuses =>
          refuses.mono (List.subset_cons_self e es)

end Draft

namespace Schema

/-- Every type of the model has grammars, and the names of its global elements can be entered. -/
structure Builds (options : Options) (s : Schema) : Prop where
  types : ∀ t ∈ s.allTypes, t.Builds options
  names : ∀ e ∈ s.elements, e.name.check = .ok ()

theorem mem_allTypes_iff {s : Schema} {t : TypeDef} :
    t ∈ s.allTypes ↔ t ∈ s.types.flatMap TypeDef.types ∨
      t ∈ typesOf (s.elements.flatMap fun e => e :: e.inner) := by
  have inner : t ∈ typesOf (s.types.flatMap TypeDef.elements) ↔
      ∃ t' ∈ s.types, t ∈ typesOf t'.elements := by
    simp only [typesOf, List.mem_filterMap, List.mem_flatMap]
    exact ⟨fun ⟨e, ⟨t', mem, here⟩, type⟩ => ⟨t', mem, e, here, type⟩,
      fun ⟨t', mem, e, here, type⟩ => ⟨e, ⟨t', mem, here⟩, type⟩⟩
  have all : s.allTypes = s.types ++ typesOf s.allElements := rfl
  rw [all, allElements, typesOf_append, List.mem_append, List.mem_append, inner, List.mem_flatMap,
    ← or_assoc]
  refine or_congr_left ⟨?_, ?_⟩
  · rintro (here | ⟨t', mem, here⟩)
    · exact ⟨t, here, List.mem_cons_self⟩
    · exact ⟨t', mem, List.mem_cons_of_mem t' here⟩
  · rintro ⟨t', mem, here⟩
    rcases List.mem_cons.1 here with rfl | later
    · exact .inl mem
    · exact .inr ⟨t', mem, later⟩

end Schema

/-- The catalog has the types of the model, and no others. -/
structure Catalog.Describes (C : Catalog) (s : Schema) : Prop where
  has : ∀ t ∈ s.allTypes, C.Has t
  listed : ∀ name t, C.type? name = some t → t ∈ s.allTypes ∧ t.name? = some name

namespace Draft

variable {C : Catalog} {d d' : Draft}

/-- The whole model has been entered. -/
structure Complete (C : Catalog) (s : Schema) (d : Draft) : Prop where
  tracked : d.store.Tracked
  recorded : d.Recorded C s.ownMentions
  covers : ∀ t ∈ s.allTypes, d.Covers C t
  globals : List.Forall₂ (d.Lists C.options ElementDecl.type) d.globals.toList s.elements

theorem recorded_start (C : Catalog) : Recorded C (start C.options) [] := by
  refine ⟨rfl, rfl, List.nodup_nil, fun name pair here => ?_, fun id here => ?_,
    fun o o' id here => ?_, ⟨.refl _, [], .nil, .nil⟩⟩
  · cases here
  · cases here
  · cases o <;> cases here

/-- Entering a model ends with all of it, or fails for memory or for something that has no grammar. -/
theorem yields_addSchema {s : Schema} (describes : C.Describes s)
    (off : C.options.skipUnsupported = false) :
    Yields (addSchema s) (start C.options)
      (fun _ d => d.Complete C s ∧ d.stack = [] ∧ s.Builds C.options)
      fun f _ => f = .memoryAllocation ∨ ¬s.Builds C.options := by
  have hasTypes : ∀ t ∈ s.types.flatMap TypeDef.types, C.Has t := fun t mem =>
    describes.has t (Schema.mem_allTypes_iff.2 (.inl mem))
  have hasElements : ∀ t ∈ typesOf (s.elements.flatMap fun e => e :: e.inner), C.Has t :=
    fun t mem => describes.has t (Schema.mem_allTypes_iff.2 (.inr mem))
  have sound := sound_start C.options
  have types := notes_addTypes off s.types (start C.options) rfl hasTypes sound []
    (recorded_start C)
  refine (types.mono_fails ?_).bind ?_
  · rintro f d ⟨_, memory | bad | ⟨t, mem, bad⟩⟩
    · exact .inl memory
    · obtain ⟨f, failed⟩ := bad _ d.uris.fits_naming
      cases failed
    · exact .inr fun builds => bad (builds.types t (Schema.mem_allTypes_iff.2 (.inl mem)))
  · rintro _ d₁ ⟨noted, _, stack, _⟩
    have walked := noted.walked
    refine (yields_addElements off s.elements d₁ _ (walked.grows.sound sound) noted.recorded
      walked.active hasElements).mono ?_ ?_
    · rintro _ d₂ entered
      have covers : ∀ t ∈ s.allTypes, d₂.Covers C t := by
        intro t mem
        rcases Schema.mem_allTypes_iff.1 mem with early | late
        · exact (noted.covers t early).keep entered.typeIds
        · exact entered.covers t late
      obtain ⟨entries, appended, standing⟩ := entered.globals
      have all : d₂.globals.toList = entries := by
        rw [appended, noted.keeps.globals]
        rfl
      refine ⟨⟨?_, entered.recorded, covers, all.symm ▸ standing⟩, entered.stack.trans stack,
        fun t mem => (covers t mem).builds, entered.checked⟩
      exact (walked.grows.trans entered.walked.grows).tracked Store.tracked_initial
    · rintro f d₂ (memory | ⟨e, mem, bad⟩ | ⟨t, mem, bad⟩)
      · exact .inl memory
      · exact .inr fun builds => bad (builds.names e mem)
      · exact .inr fun builds => bad (builds.types t (Schema.mem_allTypes_iff.2 (.inr mem)))

theorem settlePending_eq (settled : d.pending = []) : settlePending d = .ok () d := by
  have same : { d with pending := [] } = d := by
    rw [← settled]
  calc settlePending d = settle d.pending { d with pending := [] } := rfl
    _ = .ok () d := by
      rw [same, settled]
      rfl

/-- Where nothing is left over, all that remains after settling is to sort. -/
theorem finish_of_settled (run : settlePending d = .ok () d') (empty : d'.stack = []) :
    finish d = ofExcept d'.canonical d' := by
  have rest : finish d = (do
      unless d'.stack.isEmpty do
        throw (.inconsistent (.leftOnStack d'.stack.length))
      ofExcept d'.canonical : Drafting CompiledSchema) d' := by
    simp only [Draft.finish, bind, EStateM.bind, run]
    rfl
  rw [rest, empty]
  rfl

theorem finish_eq (settled : d.pending = []) (empty : d.stack = []) :
    finish d = ofExcept d.canonical d := finish_of_settled (settlePending_eq settled) empty

theorem Complete.compiles {s : Schema} (complete : d.Complete C s) (empty : d.stack = []) :
    ∃ c, finish d = .ok c d ∧ d.Compiles c := by
  obtain ⟨c, moved⟩ := canonical_eq_ok complete.tracked (fun e mem => by
    obtain ⟨decl, _, lists⟩ := exists_of_mem_forall₂ complete.globals (Array.mem_toList_iff.2 mem)
    exact names_of_find? lists.name) fun e mem => by
      obtain ⟨listed, stand, _⟩ := complete.recorded.written.locals
      obtain ⟨k, _, stands⟩ := exists_of_mem_forall₂ stand (Array.mem_toList_iff.2 mem)
      exact names_of_find? stands.name
  refine ⟨c, ?_, compiles_of_canonical complete.tracked moved⟩
  rw [finish_eq complete.recorded.pending empty, moved]
  rfl

end Draft

theorem Schema.compile_eq_ok {s : Schema} {o : Options} {d : Draft} {c : CompiledSchema}
    (entered : Draft.addSchema s (Draft.start o) = .ok () d) (finished : Draft.finish d = .ok c d) :
    s.compile o = .ok ⟨c, d.skips⟩ := by
  simp only [compile, bind, EStateM.bind, entered, finished]

/-- A consistent model compiles whole, or fails for memory or for something that has no grammar. -/
theorem Schema.compile_whole {C : Catalog} {s : Schema} (describes : C.Describes s)
    (off : C.options.skipUnsupported = false) :
    (s.Builds C.options ∧ ∃ (d : Draft) (c : CompiledSchema),
      s.compile C.options = .ok ⟨c, d.skips⟩ ∧ d.Complete C s ∧ d.Compiles c) ∨
      ∃ f, s.compile C.options = .error f ∧ (f = .memoryAllocation ∨ ¬s.Builds C.options) := by
  have spec := Draft.yields_addSchema describes off
  cases run : Draft.addSchema s (Draft.start C.options) with
  | ok _ d =>
    obtain ⟨complete, empty, builds⟩ := spec.ok_of_eq run
    obtain ⟨c, finished, compiles⟩ := complete.compiles empty
    exact .inl ⟨builds, d, c, compile_eq_ok run finished, complete, compiles⟩
  | error f d =>
    refine .inr ⟨f, ?_, spec.fails_of_eq run⟩
    simp only [compile, bind, EStateM.bind, run]

end ExiSchema
