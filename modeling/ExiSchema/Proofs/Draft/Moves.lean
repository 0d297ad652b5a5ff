import ExiSchema.Proofs.Draft.Registry
import ExiSchema.Proofs.Draft.Stepwise

/-!
What a walk over a type model does to a draft, move by move. Whether it succeeds or fails, all that it
has done is made of few kinds of moves; so what each of these keeps, every walk keeps.
-/

set_option autoImplicit false

namespace ExiSchema

namespace Draft

/-- One change of a draft, with what holds where it is made. -/
inductive Move : Draft → Draft → Prop where
  | store {d : Draft} {s : Store} (step : d.store.Step s) : Move d (d.withStore s)
  | stack {d : Draft} (stack : List GrammarId) : Move d { d with stack }
  | activate {d : Draft} {name : QName} (absent : d.types.find? name = none) :
    Move d { d with active := name :: d.active }
  | deactivate {d : Draft} : Move d { d with active := d.active.tail }
  | declareAny {d : Draft} {id : GrammarId} (absent : d.anyType = none) (here : d.Holds id .anything) :
    Move d { d with anyType := some id }
  | declareType {d : Draft} {name : QName} {pair : GrammarPair} (absent : d.types.find? name = none)
    (known : d.KnowsPair pair) : Move d { d with types := d.types.insert name pair }
  | declareGlobal {d : Draft} {name : NameRef} {id : GrammarId} (known : d.Knows id) :
    Move d { d with globals := d.globals.push ⟨name, id⟩ }
  | declareLocal {d : Draft} {name : NameRef} {type id : GrammarId} {g : Grammar}
    (absent : d.localGrammar? name type = none) (here : d.Holds type g) (copy : d.Holds id g) :
    Move d { d with locals := d.locals.push ⟨name, type, id⟩ }
  | putOff {d : Draft} {name : NameRef} {type : TypeDef} (active : d.isActive type = true) :
    Move d { d with pending := d.pending ++ [⟨name, type⟩] }
  | skip {d : Draft} {part : Part} {fault : Fault} (unsupported : fault.isNotImplemented = true)
    (may : d.options.skipUnsupported = true) : Move d { d with skips := d.skips.push ⟨part, fault⟩ }

def Moves : Draft → Draft → Prop := Relation.ReflTransGen Move

variable {d d' e : Draft}

theorem Moves.refl (d : Draft) : d.Moves d := Relation.ReflTransGen.refl

theorem Moves.trans (first : d.Moves d') (second : d'.Moves e) : d.Moves e :=
  Relation.ReflTransGen.trans first second

theorem Move.moves (move : d.Move d') : d.Moves d' := .single move

theorem Moves.move (moves : d.Moves d') (move : d'.Move e) : d.Moves e := .tail moves move

/-- What holds at a beginning and is kept by every move holds from then on. -/
theorem Moves.invariant {P : Draft → Prop} (kept : ∀ d d', Move d d' → P d → P d')
    (moves : d.Moves d') (here : P d) : P d' := by
  induction moves with
  | refl => exact here
  | tail _ move ih => exact kept _ _ move ih

theorem moves_withStore {s : Store} (grows : d.store.Grows s) : d.Moves (d.withStore s) := by
  induction grows with
  | refl => exact .refl d
  | @tail s t _ step ih => exact ih.move (.store (d := d.withStore s) step)

theorem Adds.moves (adds : d.Adds d') : d.Moves d' := by
  rw [adds.frame]
  exact moves_withStore adds.grows

theorem Move.grows (move : d.Move d') : d.store.Grows d'.store := by
  cases move with
  | store step => exact .single step
  | _ => exact .refl _

theorem Moves.grows (moves : d.Moves d') : d.store.Grows d'.store :=
  moves.invariant (P := fun e => d.store.Grows e.store) (fun _ _ move grows => grows.trans move.grows)
    (.refl _)

theorem Move.options (move : d.Move d') : d'.options = d.options := by
  cases move <;> rfl

theorem Moves.options (moves : d.Moves d') : d'.options = d.options :=
  moves.invariant (P := fun e => e.options = d.options) (fun _ _ move same => move.options.trans same)
    rfl

theorem Move.registered {name : QName} {pair : GrammarPair} (move : d.Move d')
    (found : d.types.find? name = some pair) : d'.types.find? name = some pair := by
  cases move with
  | @declareType other _ absent _ =>
    rw [TypeRegistry.find?_insert, if_neg, found]
    rintro rfl
    rw [absent] at found
    cases found
  | _ => exact found

theorem Moves.registered {name : QName} {pair : GrammarPair} (moves : d.Moves d')
    (found : d.types.find? name = some pair) : d'.types.find? name = some pair :=
  moves.invariant (fun _ _ move => move.registered) found

theorem Moves.declared {e : LocalElement} (moves : d.Moves d') (mem : e ∈ d.locals) :
    e ∈ d'.locals := by
  refine moves.invariant (P := fun d' => e ∈ d'.locals) (fun d d' move here => ?_) mem
  cases move with
  | declareLocal _ _ _ => exact Array.mem_push_of_mem _ here
  | _ => exact here

theorem Moves.anyType {id : GrammarId} (moves : d.Moves d') (here : d.anyType = some id) :
    d'.anyType = some id := by
  refine moves.invariant (P := fun e => e.anyType = some id) (fun e e' move same => ?_) here
  cases move with
  | declareAny absent _ => cases absent.symm.trans same
  | _ => exact same

theorem Moves.putOff {e : PendingElement} (moves : d.Moves d') (mem : e ∈ d.pending) :
    e ∈ d'.pending := by
  refine moves.invariant (P := fun d' => e ∈ d'.pending) (fun d d' move here => ?_) mem
  cases move with
  | putOff _ => exact List.mem_append_left _ here
  | _ => exact here

theorem Moves.skips (moves : d.Moves d') : d.skips.toList <+: d'.skips.toList := by
  refine moves.invariant (P := fun e => d.skips.toList <+: e.skips.toList) (fun e e' move here => ?_)
    (List.prefix_refl _)
  cases move with
  | skip _ _ =>
    rw [Array.toList_push]
    exact here.trans (List.prefix_append _ _)
  | _ => exact here

/-- What is being compiled is as before, and none of it has been registered. -/
structure Waits (d d' : Draft) : Prop where
  active : d'.active = d.active
  absent : ∀ name ∈ d.active, d.types.find? name = none → d'.types.find? name = none

theorem Waits.refl (d : Draft) : d.Waits d := ⟨rfl, fun _ _ => id⟩

theorem Waits.trans (first : d.Waits d') (second : d'.Waits e) : d.Waits e :=
  ⟨second.active.trans first.active, fun name mem absent =>
    second.absent name (first.active ▸ mem) (first.absent name mem absent)⟩

theorem waits_of_eq (active : d'.active = d.active) (types : d'.types = d.types) : d.Waits d' :=
  ⟨active, fun _ _ absent => types ▸ absent⟩

/-- The element was put off for a type that is registered, or is among those of the names. -/
def Awaits (d : Draft) (names : List QName) (e : PendingElement) : Prop :=
  ∃ name, e.type.name? = some name ∧ (name ∈ names ∨ ∃ pair, d.types.find? name = some pair)

/-- All that was put off waits for a type that is registered or is being compiled. -/
def Due (d : Draft) : Prop := ∀ e ∈ d.pending, d.Awaits d.active e

/-- What an action that succeeds has done: moves, and what it put off is put off for good reason,
unless parts may be left out. -/
structure Advances (d d' : Draft) : Prop where
  moves : d.Moves d'
  waits : d.Waits d'
  due : d.options.skipUnsupported = false → d.Due → d'.Due

theorem Advances.refl (d : Draft) : d.Advances d := ⟨.refl d, .refl d, fun _ => id⟩

theorem Advances.trans (first : d.Advances d') (second : d'.Advances e) : d.Advances e :=
  ⟨first.moves.trans second.moves, first.waits.trans second.waits, fun off due =>
    second.due (first.moves.options ▸ off) (first.due off due)⟩

/-- Moves that leave alone what is put off, what is being compiled and what is registered. -/
theorem Moves.advances (moves : d.Moves d') (active : d'.active = d.active)
    (types : d'.types = d.types) (pending : d'.pending = d.pending) : d.Advances d' := by
  refine ⟨moves, waits_of_eq active types, fun _ due e mem => ?_⟩
  rw [Awaits, active, types]
  exact due e (pending ▸ mem)

theorem Adds.advances (adds : d.Adds d') : d.Advances d' := by
  refine adds.moves.advances ?_ ?_ ?_ <;> rw [adds.frame] <;> rfl

end Draft

open Draft

/-- If the action succeeds, it has advanced; if it fails, it has made moves, and what is being
compiled still waits. -/
def Moving {α : Type} (action : Drafting α) (d : Draft) : Prop :=
  d.store.Sound →
    Yields action d (fun _ d' => d.Advances d') fun _ d' => d.Moves d' ∧ d.Waits d'

namespace Moving

variable {α β γ : Type} {d d' : Draft} {action : Drafting α} {next : α → Drafting β}

theorem pure {a : α} : Moving (pure a) d := fun _ => .refl d

theorem throw {fault : Fault} : Moving (throw fault : Drafting α) d := fun _ => ⟨.refl d, .refl d⟩

theorem get_bind {next : Draft → Drafting β} (rest : Moving (next d) d) :
    Moving (get >>= next) d := rest

theorem modify {f : Draft → Draft} (advances : d.Advances (f d)) : Moving (modify f) d :=
  fun _ => advances

theorem of_adds (spec : d.store.Sound →
    Yields action d (fun _ d' => d.Adds d') fun _ d' => d.Adds d') : Moving action d :=
  fun sound => (spec sound).mono (fun _ _ adds => adds.advances)
    fun _ _ adds => ⟨adds.moves, adds.advances.waits⟩

theorem of_makes {R : Draft → α → γ → Prop} {built : Naming → Except Fault γ}
    (spec : Makes action d R built) : Moving action d := of_adds spec.adds

/-- What comes after is at a draft of which more is known. -/
theorem bind_yields {M : α → Draft → Prop} (first : Moving action d)
    (spec : d.store.Sound → Yields action d M fun _ _ => True)
    (rest : ∀ a d', M a d' → Moving (next a) d') : Moving (action >>= next) d := by
  intro sound
  refine (((first sound).and (spec sound)).mono_fails fun _ _ bad => bad.1).bind ?_
  rintro a d' ⟨advances, here⟩
  exact (rest a d' here (advances.moves.grows.sound sound)).mono
    (fun _ _ more => advances.trans more)
    fun _ _ more => ⟨advances.moves.trans more.1, advances.waits.trans more.2⟩

theorem bind (first : Moving action d) (rest : ∀ a d', Moving (next a) d') :
    Moving (action >>= next) d :=
  first.bind_yields (fun _ => yields_trivial) fun a d' _ => rest a d'

theorem bind_makes {R : Draft → α → γ → Prop} {built : Naming → Except Fault γ}
    (spec : Makes action d R built)
    (rest : ∀ a c d', d.Adds d' → R d' a c → (∀ ν, d'.uris.Fits ν → built ν = .ok c) →
      Moving (next a) d') : Moving (action >>= next) d := by
  refine bind_yields (of_makes spec)
    (fun sound => (spec sound).of_ok) ?_
  rintro a d' ⟨adds, c, here, eq⟩
  exact rest a c d' adds here eq

end Moving

namespace Draft

variable {α : Type} {d : Draft}

theorem moving_push (id : GrammarId) : Moving (push id) d :=
  fun _ => (Move.stack (id :: d.stack)).moves.advances rfl rfl rfl

theorem moving_of_stack {action : Drafting α}
    (spec : Yields action d (fun _ d' => ∃ stack, d' = { d with stack }) fun _ d' => d' = d) :
    Moving action d := by
  refine fun _ => spec.mono ?_ ?_
  · rintro _ _ ⟨stack, rfl⟩
    exact (Move.stack stack).moves.advances rfl rfl rfl
  · rintro _ _ rfl
    exact ⟨.refl _, .refl _⟩

theorem yields_grammar_bind {β : Type} {id : GrammarId} {next : Grammar → Drafting β}
    {ok : β → Draft → Prop} {fails : Fault → Draft → Prop} (unknown : ∀ f, fails f d)
    (rest : ∀ g, d.Holds id g → Yields (next g) d ok fails) :
    Yields (grammar id >>= next) d ok fails := by
  rcases grammar_bind_eq d id next with ⟨g, here, run⟩ | ⟨f, run⟩
  · rw [Yields, run]
    exact rest g here
  · rw [Yields, run]
    exact unknown f

theorem moving_grammar_bind {β : Type} {id : GrammarId} {next : Grammar → Drafting β}
    (rest : ∀ g, d.Holds id g → Moving (next g) d) : Moving (grammar id >>= next) d :=
  fun sound => yields_grammar_bind (fun _ => ⟨.refl d, .refl d⟩) fun g here => rest g here sound

theorem yields_declareType (name : QName) (pair : GrammarPair) :
    Yields (declareType name pair) d
      (fun _ d' => d.KnowsPair pair ∧ d' = { d with types := d.types.insert name pair })
      fun _ d' => d' = d :=
  yields_grammar_bind (fun _ => rfl) fun g here => yields_grammar_bind (fun _ => rfl)
    fun g' here' => ⟨⟨⟨g, here⟩, g', here'⟩, rfl⟩

/-- While a type is being compiled its name is not registered. What is put off in the meantime may
wait for it. -/
theorem yields_whileActive {name : QName} {action : Drafting α}
    (absent : d.types.find? name = none) (spec : Moving action { d with active := name :: d.active })
    (sound : d.store.Sound) :
    Yields (whileActive name action) d (fun _ d' => d.Moves d' ∧ d.Waits d' ∧
        d'.types.find? name = none ∧ (d.options.skipUnsupported = false → d.Due →
          ∀ e ∈ d'.pending, d'.Awaits (name :: d.active) e))
      fun _ d' => d.Moves d' ∧ d.Waits d' := by
  have enter : d.Moves { d with active := name :: d.active } := (Move.activate absent).moves
  have back (d' : Draft) (moves : { d with active := name :: d.active }.Moves d')
      (waits : { d with active := name :: d.active }.Waits d') :
      d.Moves { d' with active := d'.active.tail } ∧ d.Waits { d' with active := d'.active.tail } :=
    ⟨(enter.trans moves).move .deactivate, congrArg List.tail waits.active,
      fun other mem => waits.absent other (List.mem_cons_of_mem _ mem)⟩
  refine yields_whileActive_iff.2 ((spec sound).mono (fun _ d' inner => ?_)
    fun _ d' bad => back d' bad.1 bad.2)
  obtain ⟨moves, waits⟩ := back d' inner.moves inner.waits
  refine ⟨moves, waits, inner.waits.absent name List.mem_cons_self absent, fun off due e mem => ?_⟩
  have due' : Due { d with active := name :: d.active } := fun e mem => by
    obtain ⟨other, named, waiting⟩ := due e mem
    exact ⟨other, named, waiting.imp_left (List.mem_cons_of_mem _)⟩
  have awaits := inner.due off due' e mem
  rwa [inner.waits.active] at awaits

/-- A type that is compiled is registered in the end. -/
theorem moving_registering {name : QName} {build : Drafting GrammarPair}
    (absent : d.types.find? name = none) (idle : name ∉ d.active)
    (spec : Moving build { d with active := name :: d.active }) :
    Moving (whileActive name build >>= fun pair => declareType name pair >>= fun _ => pure pair) d := by
  refine fun sound => (yields_whileActive absent spec sound).bind ?_
  rintro pair d₁ ⟨moves, waits, absent₁, due⟩
  refine ((yields_declareType name pair).mono (fun _ _ here => here) ?_).bind ?_
  · rintro f _ rfl
    exact ⟨moves, waits⟩
  rintro _ _ ⟨known, rfl⟩
  have kept (other : QName) (mem : other ∈ d.active) :
      (d₁.types.insert name pair).find? other = d₁.types.find? other := by
    rw [TypeRegistry.find?_insert, if_neg (ne_of_mem_of_not_mem mem idle)]
  refine ⟨moves.move (.declareType absent₁ known), ⟨waits.active, fun other mem before => ?_⟩,
    fun off before e mem => ?_⟩
  · exact (kept other mem).trans (waits.absent other mem before)
  · obtain ⟨other, named, waiting⟩ := due off before e mem
    refine ⟨other, named, ?_⟩
    -- what waited for `name` finds it registered; the other names are as active as before
    by_cases same : other = name
    · exact .inr ⟨pair, by rw [TypeRegistry.find?_insert, if_pos same]⟩
    · rw [TypeRegistry.find?_insert, if_neg same]
      refine waiting.imp_left fun mem => ?_
      exact waits.active ▸ (List.mem_cons.1 mem).resolve_left same

theorem moving_onceFor {name : Option QName} {build : Drafting GrammarPair}
    (spec : ∀ d, Moving build d) : Moving (onceFor name build) d := by
  cases name with
  | none => exact spec d
  | some name =>
    refine .get_bind ?_
    split
    · exact .pure
    next absent =>
    by_cases busy : d.active.contains name = true
    · simp only [busy, if_true]
      exact .throw
    simp only [busy, if_false, Bool.false_eq_true]
    exact moving_registering absent (mt List.contains_iff_mem.2 busy) (spec _)

theorem moving_anyTypeGrammar : Moving anyTypeGrammar d := by
  refine .get_bind ?_
  split
  · exact .pure
  next absent =>
  refine .bind_makes makes_anyContent fun id g d₁ adds here built => ?_
  cases built _ d₁.uris.fits_naming
  refine (Moving.modify ((Move.declareAny ?_ here).moves.advances rfl rfl rfl)).bind fun _ _ => .pure
  rw [adds.frame]
  exact absent

theorem moving_declareLocal (name : NameRef) (type : GrammarId) :
    Moving (declareLocal name type) d := by
  refine .get_bind ?_
  split
  · exact .pure
  next absent =>
  intro sound
  refine Moving.bind_makes (makes_forElement type) (fun id g d₁ adds copy built => ?_) sound
  obtain ⟨g₀, read, same⟩ := except_bind_eq_ok.1 (built _ d₁.uris.fits_naming)
  have here : d.Holds type g₀ := read_eq_ok_iff.1 read
  cases same
  rw [(sound g₀ here.mem).renumber_eq] at copy
  refine (Moving.modify ((Move.declareLocal ?_ (adds.holds here) copy).moves.advances rfl rfl rfl)).bind
    fun _ _ => .pure
  rw [adds.frame]
  exact absent

theorem isActive_iff {type : TypeDef} :
    d.isActive type = true ↔ ∃ name ∈ d.active, type.name? = some name := by
  unfold isActive
  cases type.name? with
  | none => simp
  | some name => simp [eq_comm]

theorem moving_putOff {type : TypeDef} (name : NameRef) (active : d.isActive type = true) :
    Moving (putOff name type) d := by
  refine .modify ⟨(Move.putOff active).moves, waits_of_eq rfl rfl, fun _ due e mem => ?_⟩
  rcases List.mem_append.1 mem with old | new
  · exact due e old
  · obtain rfl := List.mem_singleton.1 new
    obtain ⟨name, mem, named⟩ := isActive_iff.1 active
    exact ⟨name, named, .inl mem⟩

theorem moving_orSkip {part : Part} {action : Drafting α} (spec : Moving action d) :
    Moving (orSkip part action) d := by
  refine fun sound => yields_orSkip_of (spec sound) ?_ fun _ _ bad _ => bad
  rintro f d' ⟨moves, waits⟩ unsupported may
  refine ⟨(moves.move (.skip unsupported may)).move (.stack _), waits.trans (waits_of_eq rfl rfl),
    fun off => ?_⟩
  -- a part has been left out, so the options allow that
  rw [moves.options, off] at may
  cases may

theorem stepwise_moving : Stepwise @Moving where
  pure := .pure
  throw := .throw
  get_bind := .get_bind
  bind_yields := .bind_yields
  of_adds := .of_adds
  push := moving_push
  pop := moving_of_stack yields_pop
  popMany n := moving_of_stack (yields_popMany n)
  onceFor := moving_onceFor
  anyTypeGrammar := moving_anyTypeGrammar
  declareLocal := moving_declareLocal
  putOff := moving_putOff
  orSkip := moving_orSkip

theorem moving_typeGrammars (t : TypeDef) (d : Draft) : Moving (typeGrammars t) d :=
  stepwise_moving.typeGrammars t d

theorem moving_elementGrammar (decl : ElementDecl) : Moving (elementGrammar decl) d :=
  stepwise_moving.elementGrammar decl

theorem moving_settle (pending : List PendingElement) (d : Draft) : Moving (settle pending) d :=
  stepwise_moving.settle pending d

theorem moving_declareGlobal (name : QName) (id : GrammarId) : Moving (declareGlobal name id) d := by
  refine moving_grammar_bind fun g here => .bind_makes (makes_enterName name) fun ref _ d₁ adds _ _ => ?_
  exact .modify ((Move.declareGlobal ⟨g, adds.holds here⟩).moves.advances rfl rfl rfl)

theorem moving_addTypes (types : List TypeDef) : ∀ d, Moving (addTypes types) d := by
  induction types with
  | nil => exact fun _ => .pure
  | cons t rest ih => exact fun d => (moving_orSkip (moving_typeGrammars t d)).bind fun _ d' => ih d'

theorem moving_addElements (decls : List ElementDecl) : ∀ d, Moving (addElements decls) d := by
  induction decls with
  | nil => exact fun _ => .pure
  | cons decl rest ih =>
    intro d
    refine (moving_orSkip (moving_elementGrammar decl)).bind fun id d' => ?_
    cases id with
    | none => exact ih d'
    | some id => exact (moving_declareGlobal decl.name id).bind fun _ d'' => ih d''

theorem moving_addSchema (s : Schema) : Moving (addSchema s) d :=
  (moving_addTypes s.types d).bind fun _ d' => moving_addElements s.elements d'

end Draft

theorem Operation.moving (op : Operation) (inner : ∀ name pair, op ≠ .declareType name pair)
    (d : Draft) : Moving op.run d :=
  stepwise_moving.run op (fun name pair outer => absurd outer (inner name pair))
    fun name id _ => moving_declareGlobal name id

/-- What an operation does: moves, or a registration of known grammars under any name. -/
theorem Operation.moved (op : Operation) {d : Draft} (sound : d.store.Sound) :
    d.Moves (op.after d) ∨ ∃ name pair, d.KnowsPair pair ∧
      op.after d = { d with types := d.types.insert name pair } := by
  -- only a registration from outside may replace what a name is registered with
  by_cases inner : ∀ name pair, op ≠ .declareType name pair
  · exact .inl (after_of_yields ((op.moving inner d sound).mono (fun _ _ good => good.moves)
      fun _ _ bad => bad.1))
  · push Not at inner
    obtain ⟨name, pair, rfl⟩ := inner
    have spec : Yields (run (.declareType name pair)) d
        (fun _ d' => d.KnowsPair pair ∧ d' = { d with types := d.types.insert name pair })
        fun _ d' => d' = d := (yields_declareType name pair).bind fun _ _ here => here
    refine after_of_yields (P := fun d' => d.Moves d' ∨ ∃ name pair, d.KnowsPair pair ∧
      d' = { d with types := d.types.insert name pair }) (spec.mono ?_ ?_)
    · exact fun _ _ registered => .inr ⟨name, pair, registered⟩
    · rintro _ _ rfl
      exact .inl (.refl _)

namespace Draft

/-- What holds at the start and is kept by every move, and by registrations from outside, holds of
every draft that can be reached. -/
theorem Reachable.kept {P : Draft → Prop} (starts : ∀ options, P (Draft.start options))
    (kept : ∀ d d', Move d d' → P d → P d')
    (registered : ∀ (d : Draft) name pair, d.KnowsPair pair → P d →
      P { d with types := d.types.insert name pair })
    {d : Draft} (reachable : d.Reachable) : P d := by
  induction reachable with
  | start options => exact starts options
  | @after d reachable op ih =>
    rcases op.moved reachable.sound with moves | ⟨name, pair, known, same⟩
    · exact moves.invariant kept ih
    · rw [same]
      exact registered d name pair known ih

variable {d d' : Draft}

/-- The numbers that are registered are those of grammars, that of any content has its grammar, and a
local element has a copy of the grammar of its type. -/
structure Filed (d : Draft) : Prop where
  types : ∀ name pair, d.types.find? name = some pair → d.KnowsPair pair
  anyType : ∀ id, d.anyType = some id → d.Holds id .anything
  locals : ∀ e ∈ d.locals, ∃ g, d.Holds e.type g ∧ d.Holds e.grammar g

theorem filed_start (options : Options) : (start options).Filed :=
  ⟨fun _ _ found => (nomatch found), fun _ here => (nomatch here),
    fun _ mem => absurd mem (Array.not_mem_empty _)⟩

theorem Filed.declareType {name : QName} {pair : GrammarPair} (filed : d.Filed)
    (knows : d.KnowsPair pair) : Filed { d with types := d.types.insert name pair } := by
  refine ⟨fun other pair' found => ?_, filed.anyType, filed.locals⟩
  rw [TypeRegistry.find?_insert] at found
  split at found
  · cases found
    exact knows
  · exact filed.types other pair' found

theorem Move.filed (move : d.Move d') (filed : d.Filed) : d'.Filed := by
  have grows := move.grows
  cases move with
  | store step =>
    exact ⟨fun name pair found => (filed.types name pair found).grow grows,
      fun id here => grows.grammars (filed.anyType id here),
      fun e mem => by
        obtain ⟨g, here, copy⟩ := filed.locals e mem
        exact ⟨g, grows.grammars here, grows.grammars copy⟩⟩
  | declareAny _ here => exact ⟨filed.types, fun id same => by cases same; exact here, filed.locals⟩
  | declareType _ known => exact filed.declareType known
  | declareLocal _ here copy =>
    refine ⟨filed.types, filed.anyType, fun e mem => ?_⟩
    rcases Array.mem_push.1 mem with old | rfl
    · exact filed.locals e old
    · exact ⟨_, here, copy⟩
  | stack | activate | deactivate | declareGlobal | putOff | skip =>
    exact ⟨filed.types, filed.anyType, filed.locals⟩

theorem Reachable.filed (reachable : d.Reachable) : d.Filed :=
  reachable.kept filed_start (fun _ _ move => move.filed) fun _ _ _ known filed =>
    filed.declareType known

theorem exists_of_localGrammar? {name : NameRef} {type id : GrammarId}
    (found : d.localGrammar? name type = some id) :
    ∃ l ∈ d.locals, l.name = name ∧ l.type = type ∧ l.grammar = id := by
  obtain ⟨l, there, rfl⟩ := Option.map_eq_some_iff.1 found
  have same := Array.find?_some there
  rw [Bool.and_eq_true, beq_iff_eq, beq_iff_eq] at same
  exact ⟨l, Array.mem_of_find?_eq_some there, same.1, same.2, rfl⟩

theorem yields_declareLocal_copy (name : NameRef) (type : GrammarId) (sound : d.store.Sound)
    (filed : d.Filed) : Yields (declareLocal name type) d
      (fun _ d' => ∃ l g, l ∈ d'.locals ∧ l.name = name ∧ l.type = type ∧ d'.Holds type g ∧
        d'.Holds l.grammar g) fun _ _ => True := by
  refine yields_get_bind ?_
  split
  · next shared found =>
    obtain ⟨l, mem, name, rfl, rfl⟩ := exists_of_localGrammar? found
    obtain ⟨g, here, copy⟩ := filed.locals l mem
    exact ⟨l, g, mem, name, rfl, here, copy⟩
  · refine (makes_forElement type sound).bind_ok ?_
    rintro id d₁ ⟨adds, g, copy, built⟩
    obtain ⟨g₀, read, same⟩ := except_bind_eq_ok.1 (built _ d₁.uris.fits_naming)
    have here : d.Holds type g₀ := read_eq_ok_iff.1 read
    cases same
    rw [(sound g₀ here.mem).renumber_eq] at copy
    exact ⟨⟨name, type, id⟩, g₀, Array.mem_push_self, rfl, rfl, adds.holds here, copy⟩

end Draft

end ExiSchema
