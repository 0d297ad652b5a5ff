import ExiSchema.Proofs.Draft.Settling

/-!
Who registers global elements. Only the one action for it does, whatever else is done to a draft, and
under a name that the tables have from then on.
-/

set_option autoImplicit false

namespace ExiSchema

namespace Draft

/-- The store has grown, and the global elements are those that were there. -/
structure KeptGlobals (d d' : Draft) : Prop where
  grows : d.store.Grows d'.store
  globals : d'.globals = d.globals

variable {d d' e : Draft}

theorem KeptGlobals.refl (d : Draft) : d.KeptGlobals d := ⟨.refl _, rfl⟩

theorem KeptGlobals.trans (first : d.KeptGlobals d') (second : d'.KeptGlobals e) : d.KeptGlobals e :=
  ⟨first.grows.trans second.grows, second.globals.trans first.globals⟩

theorem Adds.keptGlobals (adds : d.Adds d') : d.KeptGlobals d' := by
  refine ⟨adds.grows, ?_⟩
  rw [adds.frame]
  rfl

end Draft

open Draft

/-- Whatever comes of the action, no global element has been registered. -/
def KeepsGlobals {α : Type} (action : Drafting α) (d : Draft) : Prop :=
  d.store.Sound → Yields action d (fun _ d' => d.KeptGlobals d') fun _ d' => d.KeptGlobals d'

namespace KeepsGlobals

variable {α β γ : Type} {d : Draft} {action : Drafting α} {next : α → Drafting β}

theorem pure {a : α} : KeepsGlobals (pure a) d := fun _ => .refl d

theorem throw {fault : Fault} : KeepsGlobals (throw fault : Drafting α) d := fun _ => .refl d

theorem get_bind {next : Draft → Drafting β} (rest : KeepsGlobals (next d) d) :
    KeepsGlobals (get >>= next) d := rest

theorem modify {f : Draft → Draft} (store : (f d).store = d.store) (same : (f d).globals = d.globals) :
    KeepsGlobals (modify f) d := fun _ => ⟨store ▸ .refl _, same⟩

theorem of_adds (spec : d.store.Sound →
    Yields action d (fun _ d' => d.Adds d') fun _ d' => d.Adds d') : KeepsGlobals action d :=
  fun sound => (spec sound).mono (fun _ _ adds => adds.keptGlobals) fun _ _ adds => adds.keptGlobals

theorem of_makes {R : Draft → α → γ → Prop} {built : Naming → Except Fault γ}
    (spec : Makes action d R built) : KeepsGlobals action d := of_adds spec.adds

/-- What comes after is at a draft of which more is known. -/
theorem bind_yields {M : α → Draft → Prop} (first : KeepsGlobals action d)
    (spec : d.store.Sound → Yields action d M fun _ _ => True)
    (rest : ∀ a d', M a d' → KeepsGlobals (next a) d') : KeepsGlobals (action >>= next) d := by
  intro sound
  refine (((first sound).and (spec sound)).mono_fails fun _ _ bad => bad.1).bind ?_
  rintro a d' ⟨kept, here⟩
  exact (rest a d' here (kept.grows.sound sound)).mono (fun _ _ more => kept.trans more)
    fun _ _ more => kept.trans more

theorem bind (first : KeepsGlobals action d) (rest : ∀ a d', KeepsGlobals (next a) d') :
    KeepsGlobals (action >>= next) d :=
  first.bind_yields (fun _ => yields_trivial) fun a d' _ => rest a d'

end KeepsGlobals

namespace Draft

variable {α : Type} {d d' : Draft}

theorem keepsGlobals_push (id : GrammarId) : KeepsGlobals (push id) d := fun _ => ⟨.refl _, rfl⟩

theorem keepsGlobals_of_stack {action : Drafting α}
    (spec : Yields action d (fun _ d' => ∃ stack, d' = { d with stack }) fun _ d' => d' = d) :
    KeepsGlobals action d := by
  refine fun _ => spec.mono ?_ ?_
  · rintro _ _ ⟨_, rfl⟩
    exact ⟨.refl _, rfl⟩
  · rintro _ _ rfl
    exact .refl _

theorem keepsGlobals_whileActive {name : QName} {action : Drafting α}
    (spec : KeepsGlobals action { d with active := name :: d.active }) :
    KeepsGlobals (whileActive name action) d := by
  exact fun sound => yields_whileActive_iff.2 ((spec sound).mono
    (fun _ _ kept => ⟨kept.grows, kept.globals⟩) fun _ _ kept => ⟨kept.grows, kept.globals⟩)

theorem keepsGlobals_declareType (name : QName) (pair : GrammarPair) :
    KeepsGlobals (declareType name pair) d := by
  refine fun _ => (yields_declareType name pair).mono ?_ ?_
  · rintro _ _ ⟨_, rfl⟩
    exact ⟨.refl _, rfl⟩
  · rintro _ _ rfl
    exact .refl _

theorem keepsGlobals_onceFor {name : Option QName} {build : Drafting GrammarPair}
    (spec : ∀ d, KeepsGlobals build d) : KeepsGlobals (onceFor name build) d := by
  cases name with
  | none => exact spec d
  | some name =>
    refine .get_bind ?_
    split
    · exact .pure
    split
    · exact .throw
    exact (keepsGlobals_whileActive (spec _)).bind fun pair _ =>
      (keepsGlobals_declareType name pair).bind fun _ _ => .pure

theorem keepsGlobals_anyTypeGrammar : KeepsGlobals anyTypeGrammar d := by
  refine .get_bind ?_
  split
  · exact .pure
  · exact (KeepsGlobals.of_makes makes_anyContent).bind fun _ _ =>
      (KeepsGlobals.modify rfl rfl).bind fun _ _ => .pure

theorem keepsGlobals_declareLocal (name : NameRef) (type : GrammarId) :
    KeepsGlobals (declareLocal name type) d := by
  refine .get_bind ?_
  split
  · exact .pure
  · exact (KeepsGlobals.of_makes (makes_forElement type)).bind fun _ _ =>
      (KeepsGlobals.modify rfl rfl).bind fun _ _ => .pure

theorem keepsGlobals_orSkip {part : Part} {action : Drafting α} (spec : KeepsGlobals action d) :
    KeepsGlobals (orSkip part action) d := by
  exact fun sound => yields_orSkip_of (spec sound) (fun _ _ kept _ _ => ⟨kept.grows, kept.globals⟩)
    fun _ _ kept _ => kept

theorem stepwise_keepsGlobals : Stepwise @KeepsGlobals where
  pure := .pure
  throw := .throw
  get_bind := .get_bind
  bind_yields := .bind_yields
  of_adds := .of_adds
  push := keepsGlobals_push
  pop := keepsGlobals_of_stack yields_pop
  popMany n := keepsGlobals_of_stack (yields_popMany n)
  onceFor := keepsGlobals_onceFor
  anyTypeGrammar := keepsGlobals_anyTypeGrammar
  declareLocal := keepsGlobals_declareLocal
  putOff _ _ := .modify rfl rfl
  orSkip := keepsGlobals_orSkip

/-- The global elements have names in the tables. -/
def GlobalsNamed (d : Draft) : Prop := ∀ x ∈ d.globals, d.Names x.name

/-- The global elements under their names, in the order of registration. -/
def elements (d : Draft) : List (QName × GrammarId) :=
  d.globals.toList.filterMap fun x => (d.uris.resolve? x.name).map fun q => (q, x.grammar)

theorem forall₂_elements (named : d.GlobalsNamed) :
    List.Forall₂ (fun x e => d.uris.resolve? x.name = some e.1 ∧ x.grammar = e.2) d.globals.toList
      d.elements := by
  have each (xs : List GlobalElement) (named : ∀ x ∈ xs, d.Names x.name) :
      List.Forall₂ (fun x e => d.uris.resolve? x.name = some e.1 ∧ x.grammar = e.2) xs
        (xs.filterMap fun x => (d.uris.resolve? x.name).map fun q => (q, x.grammar)) := by
    induction xs with
    | nil => exact .nil
    | cons x xs ih =>
      obtain ⟨⟨q, here⟩, rest⟩ := List.forall_mem_cons.1 named
      rw [List.filterMap_cons_some (b := (q, x.grammar)) (by rw [here, Option.map_some])]
      exact .cons ⟨here, rfl⟩ (ih rest)
  exact each _ fun x mem => named x (Array.mem_toList_iff.1 mem)

theorem elements_of_grows (named : d.GlobalsNamed) (grows : d.store.Grows d'.store) :
    (d.globals.toList.filterMap fun x => (d'.uris.resolve? x.name).map fun q => (q, x.grammar)) =
      d.elements := by
  refine List.filterMap_congr fun x mem => ?_
  obtain ⟨q, here⟩ := named x (Array.mem_toList_iff.1 mem)
  have there : d'.uris.resolve? x.name = some q := grows.uris.extends.resolve? here
  rw [here, there]

theorem KeptGlobals.named (kept : d.KeptGlobals d') (named : d.GlobalsNamed) : d'.GlobalsNamed :=
  fun x mem => (named x (kept.globals ▸ mem)).grow kept.grows

theorem KeptGlobals.elements (kept : d.KeptGlobals d') (named : d.GlobalsNamed) :
    d'.elements = d.elements := by
  rw [Draft.elements, kept.globals]
  exact elements_of_grows named kept.grows

/-- What registering a global element leaves behind. -/
theorem yields_declareGlobal_elements (named : d.GlobalsNamed) (sound : d.store.Sound) (name : QName)
    (id : GrammarId) :
    Yields (declareGlobal name id) d
      (fun _ d' => d'.GlobalsNamed ∧ d'.elements = d.elements ++ [(name, id)])
      fun _ d' => d'.GlobalsNamed ∧ d'.elements = d.elements := by
  have unchanged {d' : Draft} (kept : d.KeptGlobals d') :
      d'.GlobalsNamed ∧ d'.elements = d.elements := ⟨kept.named named, kept.elements named⟩
  refine yields_grammar_bind (fun _ => unchanged (.refl d)) fun _ _ => ?_
  refine Yields.bind ((makes_enterName name sound).mono_fails fun _ _ bad =>
    unchanged bad.1.keptGlobals) ?_
  rintro ref d₁ ⟨adds, _, ⟨_, found⟩, _⟩
  have kept := adds.keptGlobals
  have resolves : d₁.uris.resolve? ref = some name := UriTable.resolve?_of_find? found
  refine ⟨fun x mem => ?_, ?_⟩
  · rcases Array.mem_push.1 mem with old | rfl
    · exact kept.named named x old
    · exact ⟨name, resolves⟩
  · rw [elements, Array.toList_push, List.filterMap_append, kept.globals,
      elements_of_grows named (show d.store.Grows d₁.store from kept.grows)]
    simp [resolves]

end Draft

theorem Operation.keepsGlobals (op : Operation) (other : ∀ name id, op ≠ .declareGlobal name id)
    (d : Draft) : KeepsGlobals op.run d :=
  stepwise_keepsGlobals.run op (fun name pair _ => keepsGlobals_declareType name pair)
    fun name id global => absurd global (other name id)

/-- An operation leaves the global elements as they are, or it registers one and adds that. -/
theorem Operation.elements_after (op : Operation) {d : Draft} (sound : d.store.Sound)
    (named : d.GlobalsNamed) : (op.after d).GlobalsNamed ∧ ((op.after d).elements = d.elements ∨
      ∃ name id, op = .declareGlobal name id ∧ (op.after d).elements = d.elements ++ [(name, id)]) := by
  by_cases other : ∀ name id, op ≠ .declareGlobal name id
  · have kept : d.KeptGlobals (op.after d) := after_of_yields (op.keepsGlobals other d sound)
    exact ⟨kept.named named, .inl (kept.elements named)⟩
  · push Not at other
    obtain ⟨name, id, rfl⟩ := other
    have spec : Yields (run (.declareGlobal name id)) d
        (fun _ d' => d'.GlobalsNamed ∧ d'.elements = d.elements ++ [(name, id)])
        fun _ d' => d'.GlobalsNamed ∧ d'.elements = d.elements :=
      (yields_declareGlobal_elements named sound name id).bind fun _ _ here => here
    unfold after
    cases run : run (.declareGlobal name id) d with
    | ok _ _ =>
      obtain ⟨named', added⟩ := spec.ok_of_eq run
      exact ⟨named', .inr ⟨name, id, rfl, added⟩⟩
    | error _ _ =>
      obtain ⟨named', same⟩ := spec.fails_of_eq run
      exact ⟨named', .inl same⟩

namespace Draft

variable {d d' : Draft}

theorem Ripe.globalsNamed (ripe : d.Ripe) : d.GlobalsNamed := by
  cases ripe with
  | reached reachable =>
    induction reachable with
    | start options => exact fun x mem => absurd mem (Array.not_mem_empty x)
    | after reachable op ih => exact (op.elements_after reachable.sound ih).1
  | @entered s options _ run =>
    have accounts : Accounts s.faults (addSchema s) (start options) fun _ _ => True :=
      accounts_addSchema rfl (List.Subset.refl _)
    exact ((accounts (sound_start options) (orderly_start options)).ok_of_eq run).1.globals

/-- Settling registers no global elements. -/
theorem Ripe.keptGlobals (ripe : d.Ripe) (run : settlePending d = .ok () d') : d.KeptGlobals d' := by
  have sound : Store.Sound { d with pending := [] }.store := ripe.sound
  have begun : settle d.pending { d with pending := [] } = .ok () d' := run
  obtain ⟨grows, globals⟩ := (stepwise_keepsGlobals.settle d.pending _ sound).ok_of_eq begun
  exact ⟨grows, globals⟩

end Draft

end ExiSchema
