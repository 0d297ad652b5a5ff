import ExiSchema.Proofs.Draft.Content
import ExiSchema.Proofs.Draft.Standing
import ExiSchema.Proofs.Draft.Starting

/-!
Local elements that were put off. Settling takes the queue once: each element in it is declared or
reported. What is put off in the meantime, for a type that had been left unfinished and is compiled
only now, stays in the queue for good.
-/

set_option autoImplicit false

namespace ExiSchema

namespace Draft

/-- The drafts that may be settled: those that operations lead to, and those that a whole model has
been entered into. -/
inductive Ripe : Draft → Prop where
  | reached {d : Draft} (reachable : d.Reachable) : Ripe d
  | entered {s : Schema} {options : Options} {d : Draft}
    (run : addSchema s (start options) = .ok () d) : Ripe d

/-- The element is declared, with a copy of the grammar that is registered for its type. -/
def Declared (d : Draft) (e : PendingElement) : Prop :=
  ∃ name pair l g, e.type.name? = some name ∧ d.types.find? name = some pair ∧ l ∈ d.locals ∧
    l.name = e.name ∧ l.type = pair.grammar ∧ d.Holds pair.grammar g ∧ d.Holds l.grammar g

/-- The element has been left out since a draft, with a warning that its type is not supported. -/
def ReportedSince (before d : Draft) (e : PendingElement) : Prop :=
  ∃ fault, ⟨.localElement e.type.name?, fault⟩ ∈ d.skips.toList.drop before.skips.size ∧
    fault.isNotImplemented = true ∧ before.options.skipUnsupported = true

variable {before d d' : Draft} {e : PendingElement}

theorem Declared.move (declared : d.Declared e) (moves : d.Moves d') : d'.Declared e := by
  obtain ⟨name, pair, l, g, named, found, mem, ref, type, here, copy⟩ := declared
  exact ⟨name, pair, l, g, named, moves.registered found, moves.declared mem, ref, type,
    moves.grows.grammars here, moves.grows.grammars copy⟩

theorem ReportedSince.move (reported : before.ReportedSince d e) (moves : d.Moves d') :
    before.ReportedSince d' e := by
  obtain ⟨fault, mem, unsupported, may⟩ := reported
  exact ⟨fault, (moves.skips.drop _).subset mem, unsupported, may⟩

/-- Elements are put off only for types with names. -/
def PutsOffNamed (d : Draft) : Prop := ∀ e ∈ d.pending, ∃ name, e.type.name? = some name

theorem Move.putsOffNamed (move : d.Move d') (all : d.PutsOffNamed) : d'.PutsOffNamed := by
  cases move with
  | @putOff name type active =>
    intro e mem
    rcases List.mem_append.1 mem with old | new
    · exact all e old
    · obtain rfl := List.mem_singleton.1 new
      obtain ⟨name, _, named⟩ := isActive_iff.1 active
      exact ⟨name, named⟩
  | _ => exact all

theorem moves_of_entered {s : Schema} {options : Options}
    (run : addSchema s (start options) = .ok () d) : (start options).Advances d :=
  (moving_addSchema s (sound_start options)).ok_of_eq run

namespace Ripe

variable (ripe : d.Ripe)
include ripe

theorem sound : d.store.Sound := by
  cases ripe with
  | reached reachable => exact reachable.sound
  | entered run => exact (moves_of_entered run).moves.grows.sound (sound_start _)

/-- What holds at the start and is kept by every move, and by registrations from outside. -/
theorem kept {P : Draft → Prop} (starts : ∀ options, P (start options))
    (kept : ∀ d d', Move d d' → P d → P d')
    (registered : ∀ (d : Draft) name pair, d.KnowsPair pair → P d →
      P { d with types := d.types.insert name pair }) : P d := by
  cases ripe with
  | reached reachable => exact reachable.kept starts kept registered
  | entered run => exact (moves_of_entered run).moves.invariant kept (starts _)

theorem filed : d.Filed :=
  ripe.kept filed_start (fun _ _ move => move.filed) fun _ _ _ known filed =>
    filed.declareType known

theorem idle : d.active = [] := by
  cases ripe with
  | reached reachable =>
    induction reachable with
    | start options => rfl
    | after reachable op ih => exact (op.walked reachable.sound).active.trans ih
  | entered run => exact (moves_of_entered run).waits.active

theorem putsOffNamed : d.PutsOffNamed :=
  ripe.kept (fun _ _ mem => (nomatch mem)) (fun _ _ move => move.putsOffNamed) fun _ _ _ _ => id

end Ripe

/-- The grammars of a named type are those that it is registered with in the end. -/
theorem yields_typeGrammars_registered {t : TypeDef} {name : QName} (named : t.name? = some name) :
    Yields (typeGrammars t) d (fun pair d' => d'.types.find? name = some pair) fun _ _ => True := by
  rw [typeGrammars_eq_onceFor, named]
  refine yields_get_bind ?_
  split
  · exact ‹_›
  split
  · exact yields_throw trivial
  refine yields_bind_any fun pair d₁ => (yields_declareType name pair).bind_ok ?_
  rintro _ _ ⟨_, rfl⟩
  exact (TypeRegistry.find?_insert).trans (if_pos rfl)

/-- What is skipped is the part, for a fault of the action. -/
theorem yields_orSkip_skips {α : Type} {part : Part} {action : Drafting α} {ok : α → Draft → Prop}
    {fails : Fault → Draft → Prop} (spec : Yields action d ok fails) :
    Yields (orSkip part action) d (fun _ d' => (∃ a, ok a d') ∨ ∃ fault d₁, fails fault d₁ ∧
      fault.isNotImplemented = true ∧ d₁.options.skipUnsupported = true ∧
      d' = { d₁ with skips := d₁.skips.push ⟨part, fault⟩, stack := d'.stack }) fun _ _ => True := by
  refine yields_orSkip_of (spec.mono_ok fun a _ good => .inl ⟨a, good⟩) ?_ fun _ _ _ _ => trivial
  exact fun f d' bad unsupported may => .inr ⟨f, d', bad, unsupported, may, rfl⟩

def late (e : PendingElement) : Drafting GrammarId := do
  declareLocal e.name (← typeGrammars e.type).grammar

theorem moving_late (e : PendingElement) : Moving (late e) d :=
  (moving_typeGrammars e.type d).bind fun grammars _ => moving_declareLocal e.name grammars.grammar

theorem yields_late (sound : d.store.Sound) (filed : d.Filed)
    (named : ∃ name, e.type.name? = some name) :
    Yields (late e) d (fun _ d' => d'.Declared e) fun _ _ => True := by
  obtain ⟨name, named⟩ := named
  refine ((moving_typeGrammars e.type d sound).and (yields_typeGrammars_registered named)).bind_ok ?_
  rintro pair d₁ ⟨advances, found⟩
  have sound₁ := advances.moves.grows.sound sound
  have filed₁ : d₁.Filed := advances.moves.invariant (fun _ _ move => move.filed) filed
  refine ((moving_declareLocal e.name pair.grammar sound₁).and
    (yields_declareLocal_copy e.name pair.grammar sound₁ filed₁)).mono ?_ fun _ _ _ => trivial
  rintro id d₂ ⟨advances₂, l, g, mem, ref, type, here, copy⟩
  exact ⟨name, pair, l, g, named, advances₂.moves.registered found, mem, ref, type, here, copy⟩

theorem yields_settle_one (sound : d.store.Sound) (filed : d.Filed)
    (named : ∃ name, e.type.name? = some name) (since : before.Moves d) :
    Yields (orSkip (.localElement e.type.name?) (late e)) d
      (fun _ d' => d'.Declared e ∨ before.ReportedSince d' e) fun _ _ => True := by
  refine (yields_orSkip_skips ((moving_late e sound).and (yields_late sound filed named))).mono ?_
    fun _ _ _ => trivial
  rintro _ d' (⟨_, _, declared⟩ | ⟨f, d₁, ⟨⟨moves, _⟩, _⟩, unsupported, may, same⟩)
  · exact .inl declared
  · have since := since.trans moves
    refine .inr ⟨f, ?_, unsupported, since.options ▸ may⟩
    have le : before.skips.size ≤ d₁.skips.toList.length := since.skips.length_le
    rw [same, Array.toList_push, List.drop_append_of_le_length le]
    exact List.mem_append_right _ (List.mem_singleton_self _)

theorem yields_settle (pending : List PendingElement)
    (named : ∀ e ∈ pending, ∃ name, e.type.name? = some name) (sound : d.store.Sound)
    (filed : d.Filed) (since : before.Moves d) : Yields (settle pending) d
      (fun _ d' => ∀ e ∈ pending, d'.Declared e ∨ before.ReportedSince d' e) fun _ _ => True := by
  induction pending generalizing d with
  | nil => exact fun _ mem => (nomatch mem)
  | cons e rest ih =>
    obtain ⟨first, others⟩ := List.forall_mem_cons.1 named
    refine ((moving_orSkip (moving_late e) sound).and
      (yields_settle_one sound filed first since)).bind_ok ?_
    rintro _ d₁ ⟨⟨moves, _, _⟩, settled⟩
    have sound₁ := moves.grows.sound sound
    have filed₁ : d₁.Filed := moves.invariant (fun _ _ move => move.filed) filed
    refine ((moving_settle rest d₁ sound₁).and (ih others sound₁ filed₁ (since.trans moves))).mono ?_
      fun _ _ _ => trivial
    rintro _ d₂ ⟨⟨moves₂, _, _⟩, all⟩
    exact List.forall_mem_cons.2 ⟨settled.imp (·.move moves₂) (·.move moves₂), all⟩

/-- What is put off from here on is put off for types that were not registered here. -/
structure PutsOffNew (before d : Draft) : Prop where
  registered : ∀ name pair, before.types.find? name = some pair → d.types.find? name = some pair
  active : ∀ name ∈ d.active, before.types.find? name = none
  pending : ∀ e ∈ d.pending, ∃ name, e.type.name? = some name ∧ before.types.find? name = none

theorem Move.putsOffNew (move : d.Move d') (new : before.PutsOffNew d) : before.PutsOffNew d' := by
  have registered (name : QName) (pair : GrammarPair) (found : before.types.find? name = some pair) :
      d'.types.find? name = some pair := move.registered (new.registered name pair found)
  -- no registration gets lost, so what is absent here was absent before
  have absent {name : QName} (here : d.types.find? name = none) : before.types.find? name = none := by
    cases found : before.types.find? name with
    | none => rfl
    | some pair => cases here.symm.trans (new.registered name pair found)
  cases move with
  | activate here =>
    exact ⟨registered, List.forall_mem_cons.2 ⟨absent here, new.active⟩, new.pending⟩
  | deactivate => exact ⟨registered, fun name mem => new.active name (List.mem_of_mem_tail mem),
      new.pending⟩
  | @putOff ref type active =>
    refine ⟨registered, new.active, fun e mem => ?_⟩
    rcases List.mem_append.1 mem with old | here
    · exact new.pending e old
    · obtain rfl := List.mem_singleton.1 here
      obtain ⟨name, mem, named⟩ := isActive_iff.1 active
      exact ⟨name, named, new.active name mem⟩
  | _ => exact ⟨registered, new.active, new.pending⟩

/-- If all types are registered, nothing is compiled: what the declarations keep, settling keeps. -/
theorem yields_settle_registered {P : Draft → Prop} (pending : List PendingElement)
    (sound : d.store.Sound) (registered : ∀ e ∈ pending, ∃ name pair, e.type.name? = some name ∧
      d.types.find? name = some pair) (here : P d)
    (declare : ∀ e ∈ pending, ∀ type d, d.store.Sound → P d →
      Yields (declareLocal e.name type) d (fun _ d' => P d') fun _ _ => True)
    (beside : ∀ d skips stack, P d → P { d with skips, stack }) :
    Yields (settle pending) d (fun _ d' => P d') fun _ _ => True := by
  induction pending generalizing d with
  | nil => exact yields_pure here
  | cons e rest ih =>
    obtain ⟨⟨name, pair, named, found⟩, others⟩ := List.forall_mem_cons.1 registered
    -- the type is registered, so its grammars are there and nothing is compiled
    have run : late e d = declareLocal e.name pair.grammar d := by
      simp only [late, bind, EStateM.bind, typeGrammars_of_registered named found]
    have spec : Yields (late e) d (fun _ d' => P d' ∧ d'.types = d.types)
        fun _ d' => P d' ∧ d'.types = d.types := by
      rw [Yields, run]
      refine ((declare e List.mem_cons_self pair.grammar d sound here).and
        (yields_declareLocal_names e.name pair.grammar sound)).mono
        (fun _ _ good => ⟨good.1, good.2.1.1⟩) ?_
      rintro f _ ⟨_, rfl⟩
      exact ⟨here, rfl⟩
    refine ((moving_orSkip (moving_late e) sound).and (yields_orSkip_skips spec)).bind_ok ?_
    rintro _ d₁ ⟨⟨moves, _, _⟩, kept⟩
    obtain ⟨here₁, types⟩ : P d₁ ∧ d₁.types = d.types := by
      rcases kept with ⟨_, same⟩ | ⟨_, d₂, ⟨here₂, types⟩, _, _, frame⟩
      · exact same
      · rw [frame]
        exact ⟨beside d₂ _ _ here₂, types⟩
    refine ih (moves.grows.sound sound) (fun e mem => ?_) here₁ fun e mem => declare e (.tail _ mem)
    rw [types]
    exact others e mem

/-- When a whole model has been entered, what was put off is put off for types that are registered by
then. -/
theorem registered_of_entered {s : Schema} {options : Options} (off : options.skipUnsupported = false)
    (run : addSchema s (start options) = .ok () d) : ∀ e ∈ d.pending, ∃ name pair,
      e.type.name? = some name ∧ d.types.find? name = some pair := by
  intro e mem
  have due := (moves_of_entered run).due off fun _ mem => (nomatch mem)
  obtain ⟨name, named, waiting⟩ := due e mem
  obtain ⟨pair, found⟩ := waiting.resolve_left ((Ripe.entered run).idle ▸ List.not_mem_nil)
  exact ⟨name, pair, named, found⟩

section

variable (ripe : d.Ripe) (run : settlePending d = .ok () d')
include ripe run

theorem Ripe.moves : Moves { d with pending := [] } d' := by
  have sound : Store.Sound { d with pending := [] }.store := ripe.sound
  have begun : settle d.pending { d with pending := [] } = .ok () d' := run
  exact ((moving_settle d.pending _ sound).ok_of_eq begun).moves

theorem Ripe.declares_or_reports (e : PendingElement) (mem : e ∈ d.pending) :
    d'.Declared e ∨ d.ReportedSince d' e := by
  have sound : Store.Sound { d with pending := [] }.store := ripe.sound
  have filed : Filed { d with pending := [] } :=
    ⟨ripe.filed.types, ripe.filed.anyType, ripe.filed.locals⟩
  have begun : settle d.pending { d with pending := [] } = .ok () d' := run
  exact (yields_settle d.pending ripe.putsOffNamed sound filed (.refl _)).ok_of_eq begun e mem

theorem Ripe.empties (registered : ∀ e ∈ d.pending, ∃ name pair, e.type.name? = some name ∧
    d.types.find? name = some pair) : d'.pending = [] := by
  have sound : Store.Sound { d with pending := [] }.store := ripe.sound
  have begun : settle d.pending { d with pending := [] } = .ok () d' := run
  refine (yields_settle_registered (P := fun d => d.pending = []) d.pending sound registered rfl
    (fun e _ type d sound none => ?_) fun _ _ _ none => none).ok_of_eq begun
  exact (yields_declareLocal_names e.name type sound).mono (fun _ _ same => same.1.2.trans none)
    fun _ _ _ => trivial

theorem Ripe.leaves_new (e : PendingElement) (mem : e ∈ d'.pending) :
    ∃ name, e.type.name? = some name ∧ d.types.find? name = none := by
  have new : d.PutsOffNew { d with pending := [] } :=
    ⟨fun _ _ => id, fun _ mem => absurd (ripe.idle ▸ mem) List.not_mem_nil, fun _ mem => (nomatch mem)⟩
  exact ((ripe.moves run).invariant (fun _ _ move => move.putsOffNew) new).pending e mem

/-- Settling declares or reports each element that has been put off. What it leaves in the queue, it
has put off itself, for types that were not registered when it began; so if all types are registered,
as they are when a whole model has been entered and nothing may be left out, the queue is empty in
the end. -/
theorem Ripe.settles :
    (∀ e ∈ d.pending, d'.Declared e ∨ d.ReportedSince d' e) ∧
    (∀ e ∈ d'.pending, ∃ name, e.type.name? = some name ∧ d.types.find? name = none) ∧
    ((∀ e ∈ d.pending, ∃ name pair, e.type.name? = some name ∧ d.types.find? name = some pair) →
      d'.pending = []) ∧
    ∀ s options, options.skipUnsupported = false → addSchema s (start options) = .ok () d →
      d'.pending = [] :=
  ⟨ripe.declares_or_reports run, ripe.leaves_new run, ripe.empties run,
    fun _ _ off entered => ripe.empties run (registered_of_entered off entered)⟩

end

section

theorem exists_settled (s : Schema) (options : Options) {P : Draft → Draft → Prop}
    (runs : Yields (addSchema s) (start options)
      (fun _ d => Yields settlePending d (fun _ d' => P d d') fun _ _ => False) fun _ _ => False) :
    ∃ d d', addSchema s (start options) = .ok () d ∧ settlePending d = .ok () d' ∧ P d d' := by
  obtain ⟨_, d, entered, runs⟩ := exists_of_yields runs
  obtain ⟨_, d', settled, here⟩ := exists_of_yields runs
  exact ⟨d, d', entered, settled, here⟩

/-- A type with an optional element of the type itself, which is given by its name only. -/
def recursive : Schema where
  types := [.complex (some ⟨"", "t"⟩) [] none (.elementOnly (.optional
    (.element ⟨⟨"", "x"⟩, [], some (.simple (some ⟨"", "t"⟩) .atomic "string")⟩)))]
  elements := []

theorem recursive_settles : ∃ d d', addSchema recursive (start {}) = .ok () d ∧
    settlePending d = .ok () d' ∧ d.pending.length = 1 ∧ (∀ e ∈ d.pending, d'.Declared e) ∧
    d'.pending = [] := by
  obtain ⟨d, d', entered, settled, one, none⟩ := exists_settled recursive {}
    (P := fun d d' => d.pending.length = 1 ∧ d'.skips = #[]) (by decide +kernel)
  obtain ⟨all, _, _, whole⟩ := (Ripe.entered entered).settles settled
  refine ⟨d, d', entered, settled, one, fun e mem => (all e mem).resolve_right ?_,
    whole recursive {} rfl entered⟩
  rintro ⟨fault, mem, _⟩
  rw [none] at mem
  exact absurd (List.mem_of_mem_drop mem) List.not_mem_nil

def listType (name : String) : TypeDef := .simple (some ⟨"", name⟩) (.list none) "string"

def pairType (name : String) (first second : ElementDecl) : TypeDef :=
  .complex (some ⟨"", name⟩) [] none
    (.elementOnly (.once (.group .sequence [.once (.element first), .once (.element second)])))

/-- A type that cannot be compiled until another one has been declared again. -/
def waiting : TypeDef :=
  pairType "t" ⟨⟨"", "x"⟩, [], some (listType "u")⟩ ⟨⟨"", "c"⟩, [], some (listType "t")⟩

/-- When the last type has been compiled, the third one can be, and it is while an element of its
type is settled. -/
def resumed : Schema where
  types := [listType "t", listType "u", waiting,
    pairType "t" ⟨⟨"", "a"⟩, [], some waiting⟩ ⟨⟨"", "x"⟩, [], some (listType "u")⟩,
    .simple (some ⟨"", "u"⟩) .atomic "string"]
  elements := []

/-- An element of the name is left in the queue, neither declared nor reported. -/
def Forgets (d : Draft) (name : QName) : Prop :=
  ∃ e ∈ d.pending, d.uris.resolve? e.name = some name ∧ (∀ l ∈ d.locals.toList, l.name ≠ e.name) ∧
    ∀ skip ∈ d.skips.toList, skip.part ≠ .localElement e.type.name?

instance (d : Draft) (name : QName) : Decidable (d.Forgets name) :=
  inferInstanceAs (Decidable (∃ e ∈ d.pending, _ ∧ _ ∧ _))

/-- The element of the resumed type is put off when the queue has been taken, and so it is left. -/
theorem settling_forgets : ∃ d d', d.Ripe ∧ settlePending d = .ok () d' ∧ d'.Forgets ⟨"", "c"⟩ := by
  obtain ⟨d, d', entered, settled, lost⟩ := exists_settled resumed
    { skipUnsupported := true } (P := fun _ d' => d'.Forgets ⟨"", "c"⟩) (by decide +kernel)
  exact ⟨d, d', .entered entered, settled, lost⟩

end

end Draft

end ExiSchema
