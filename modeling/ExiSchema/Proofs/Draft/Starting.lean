import ExiSchema.Proofs.Draft.Canonical
import ExiSchema.Proofs.Draft.Moves

/-!
The elements that the grammars of a draft start by name. The actions that compose grammars take them
from their parts; only a term that is an element adds one.
-/

set_option autoImplicit false

namespace ExiSchema

namespace Grammar

/-- Some production of the grammars has an event of the kind. -/
def Has (P : Event → Prop) (gs : Array Grammar) : Prop :=
  ∃ g ∈ gs, ∃ r ∈ g.rules, ∃ p ∈ r.productions, P p.event

theorem has_push {P : Event → Prop} {gs : Array Grammar} {g : Grammar} :
    Has P (gs.push g) ↔ Has P gs ∨ ∃ r ∈ g.rules, ∃ p ∈ r.productions, P p.event := by
  simp only [Has, Array.mem_push, or_and_right, exists_or, exists_eq_left]

/-- The grammar starts no elements but those with names in the set. -/
def StartsOnly (S : NameRef → Prop) (g : Grammar) : Prop :=
  g.Every fun e => ∀ ref, e = .startElement ref → S ref

variable {S : NameRef → Prop} {g : Grammar} {parts : List Grammar}

theorem respected_starts : Event.Respected fun e e' =>
    e = e' ∧ ∀ ref, e = .startElement ref → S ref := by
  refine ⟨fun e plain => ⟨rfl, ?_⟩, fun e e' same => by rw [same.1]⟩
  rintro ref rfl
  cases plain

theorem startsOnly_oneOf {events : List Event}
    (only : ∀ e ∈ events, ∀ ref, e = .startElement ref → S ref) : (oneOf events).StartsOnly S :=
  alike_self_iff.1 (alike_oneOf respected_starts (List.forall₂_same.2 fun e mem => ⟨rfl, only e mem⟩))

theorem startsOnly_single {e : Event} (only : ∀ ref, e = .startElement ref → S ref) :
    (single e).StartsOnly S := startsOnly_oneOf (List.forall_mem_singleton.2 only)

theorem startsOnly_plain (plain : ∀ r ∈ g.rules, ∀ p ∈ r.productions, p.event.uri? = none) :
    g.StartsOnly S := alike_self_iff.1 (alike_plain respected_starts plain)

theorem StartsOnly.sequence (all : ∀ p ∈ parts, p.StartsOnly S) (run : sequence parts = .ok g) :
    g.StartsOnly S := .of_agree (agree_sequence respected_starts (Every.parts_alike all)) run

theorem StartsOnly.choice (all : ∀ p ∈ parts, p.StartsOnly S) (run : choice parts = .ok g) :
    g.StartsOnly S := .of_agree (agree_choice respected_starts (Every.parts_alike all)) run

theorem StartsOnly.rounds (all : ∀ p ∈ parts, p.StartsOnly S) (run : rounds parts = .ok g) :
    g.StartsOnly S := .of_agree (agree_rounds respected_starts (Every.parts_alike all)) run

namespace StartsOnly

variable (only : g.StartsOnly S)
include only

theorem alike : Alike (fun e e' => e = e' ∧ ∀ ref, e = .startElement ref → S ref) g g :=
  alike_self_iff.2 only

theorem withEscape : g.withEscape.StartsOnly S :=
  alike_self_iff.1 (only.alike.withEscape respected_starts)

theorem looped : g.looped.StartsOnly S :=
  alike_self_iff.1 (only.alike.looped respected_starts)

theorem withText : g.withText.StartsOnly S :=
  alike_self_iff.1 (only.alike.withText respected_starts)

theorem renumber : g.renumber.StartsOnly S := alike_self_iff.1 only.alike.renumber

theorem withStartEvents {events : List Event} (quiet : ∀ e ∈ events, ∀ ref, e ≠ .startElement ref) :
    (g.withStartEvents events).StartsOnly S :=
  alike_self_iff.1 (only.alike.withStartEvents (List.forall₂_same.2 fun e mem =>
    ⟨rfl, fun ref same => absurd same (quiet e mem ref)⟩))

end StartsOnly

end Grammar

namespace Draft

/-- Some grammar of the draft starts an element of this name. -/
def Starts (d : Draft) (ref : NameRef) : Prop := Grammar.Has (· = .startElement ref) d.grammars

variable {d d' : Draft} {id : GrammarId} {ids : List GrammarId}

theorem startsOnly_of_mem {g : Grammar} (mem : g ∈ d.grammars) : g.StartsOnly d.Starts :=
  fun r rule p inner _ event => ⟨g, mem, r, rule, p, inner, event⟩

theorem startsOnly_of_read {g : Grammar} (run : d.read id = .ok g) : g.StartsOnly d.Starts :=
  startsOnly_of_mem (Holds.mem (read_eq_ok_iff.1 run))

theorem startsOnly_of_mapM_read {gs : List Grammar} (run : ids.mapM d.read = .ok gs) :
    ∀ g ∈ gs, g.StartsOnly d.Starts := fun g mem => startsOnly_of_mem (mem_of_mapM_read run g mem)

theorem Starts.grow {ref : NameRef} (starts : d.Starts ref) (grows : d.store.Grows d'.store) :
    d'.Starts ref := by
  obtain ⟨g, mem, inner⟩ := starts
  obtain ⟨i, lt, rfl⟩ := Array.mem_iff_getElem.1 mem
  exact ⟨_, Array.mem_of_getElem? (grows.grammars (Array.getElem?_eq_getElem lt)), inner⟩

end Draft

open Draft

/-- Where the action succeeds, the grammars start the same elements as before. -/
def Borrows {α : Type} (action : Drafting α) (d : Draft) : Prop :=
  Yields action d (fun _ d' => ∀ ref, d'.Starts ref → d.Starts ref) fun _ _ => True

namespace Borrows

variable {α β : Type} {d : Draft} {action : Drafting α} {next : α → Drafting β}

theorem pure {a : α} : Borrows (pure a) d := fun _ => id

theorem throw {fault : Fault} : Borrows (throw fault : Drafting α) d := trivial

theorem bind_yields {M : α → Draft → Prop} (first : Borrows action d)
    (spec : Yields action d M fun _ _ => True) (rest : ∀ a d', M a d' → Borrows (next a) d') :
    Borrows (action >>= next) d := by
  refine (Yields.and first spec).bind_ok ?_
  rintro a d' ⟨borrows, here⟩
  exact Yields.mono_ok (rest a d' here) fun _ _ more ref starts => borrows ref (more ref starts)

theorem bind (first : Borrows action d) (rest : ∀ a d', Borrows (next a) d') :
    Borrows (action >>= next) d :=
  first.bind_yields yields_trivial fun a d' _ => rest a d'

theorem bind_reads {r : Except Fault α} (reads : action d = ofExcept r d)
    (rest : ∀ a, r = .ok a → Borrows (next a) d) : Borrows (action >>= next) d := by
  have run : (action >>= next) d = (ofExcept r >>= next) d := by
    simp only [Bind.bind, EStateM.bind, reads]
  rw [Borrows, Yields, run]
  cases r with
  | ok a => exact rest a rfl
  | error fault => trivial

theorem mapM {f : α → Drafting β} (each : ∀ x d', Borrows (f x) d') (xs : List α) :
    Borrows (xs.mapM f) d := by
  induction xs generalizing d with
  | nil => exact .pure
  | cons x xs ih =>
    rw [List.mapM_cons]
    exact (each x d).bind fun _ _ => ih.bind fun _ _ => .pure

end Borrows

namespace Draft

variable {d : Draft} {id : GrammarId} {ids : List GrammarId}

theorem borrows_insert {g : Grammar} (only : g.StartsOnly d.Starts) : Borrows (insert g) d := by
  unfold Borrows Yields insert
  by_cases room : d.grammars.size < grammarLimit
  · simp only [if_pos room]
    intro ref starts
    rcases Grammar.has_push.1 starts with old | ⟨r, rule, p, inner, event⟩
    · exact old
    · exact only r rule p inner ref event
  · simp only [if_neg room]

theorem borrows_onTables {α : Type} (action : UriTable.Action α) : Borrows (onTables action) d := by
  unfold Borrows Yields onTables
  cases action d.uris with
  | ok a uris => exact fun _ => id
  | error f uris => trivial

theorem borrows_namespaceRows (uris : List String) : Borrows (namespaceRows uris) d := by
  unfold namespaceRows
  split
  · exact .throw
  · exact .mapM (fun uri _ => borrows_onTables _) uris

theorem borrows_wildcardTerm (wildcard : Wildcard) : Borrows (wildcardTerm wildcard) d := by
  cases wildcard with
  | any | except _ => exact borrows_insert (Grammar.startsOnly_oneOf (by simp))
  | among uris =>
    refine (borrows_namespaceRows uris).bind fun rows d' =>
      borrows_insert (Grammar.startsOnly_oneOf fun e mem ref same => ?_)
    obtain ⟨row, _, rfl⟩ := List.mem_map.1 mem
    cases same

theorem borrows_emptyContent : Borrows emptyContent d :=
  borrows_insert (Grammar.startsOnly_plain (by decide))

theorem borrows_simpleContent (builtIn : String) : Borrows (simpleContent builtIn) d :=
  .bind_reads (datatype_eq builtIn) fun _ _ => borrows_insert (Grammar.startsOnly_single nofun)

theorem borrows_anyContent : Borrows anyContent d :=
  borrows_insert (Grammar.startsOnly_plain (by decide))

theorem borrows_attributeUse (required : Bool) (name : QName) (builtIn : String) :
    Borrows (attributeUse required name builtIn) d := by
  refine .bind_reads (datatype_eq builtIn) fun value _ => (borrows_onTables _).bind fun ref d' => ?_
  have only : (Grammar.single (.attribute ref value)).StartsOnly d'.Starts :=
    Grammar.startsOnly_single nofun
  cases required with
  | true => exact borrows_insert only
  | false => exact borrows_insert only.withEscape

theorem borrows_attributesOf (uses : List AttributeUse) : Borrows (attributesOf uses) d := by
  have each (u : AttributeUse) (d' : Draft) :
      Borrows (attributeUse u.required u.name u.builtIn) d' := borrows_attributeUse _ _ _
  exact .mapM each _

theorem borrows_chain (ids : List GrammarId) : Borrows (chain ids) d :=
  .bind_reads (mapM_ofExcept (fun id => grammar_eq id d) ids) fun _ known =>
    .bind_reads rfl fun _ run => borrows_insert (.sequence (startsOnly_of_mapM_read known) run)

theorem borrows_startRule_bind {β : Type} {g : Grammar} {next : Rule → Drafting β}
    (rest : ∀ r, Borrows (next r) d) : Borrows (startRule id g >>= next) d := by
  have reads : startRule id g d =
      ofExcept ((g.rule? 0).elim (.error (.inconsistent (.noStartRule id))) .ok) d := by
    unfold startRule ofExcept
    cases g.rule? 0 <;> rfl
  exact .bind_reads reads fun r _ => rest r

/-- The events are those of attributes. -/
theorem yields_admittedEvents_quiet (wildcard : Wildcard) :
    Yields (admittedEvents wildcard) d (fun events _ => ∀ e ∈ events, ∀ ref, e ≠ .startElement ref)
      fun _ _ => True := by
  cases wildcard with
  | any | except _ => exact yields_pure (by simp)
  | among uris =>
    refine yields_bind_any fun rows d' => yields_pure fun e mem => ?_
    obtain ⟨row, _, rfl⟩ := List.mem_map.1 mem
    exact nofun

theorem borrows_admittedEvents (wildcard : Wildcard) : Borrows (admittedEvents wildcard) d := by
  cases wildcard with
  | any | except _ => exact .pure
  | among uris => exact (borrows_namespaceRows uris).bind fun _ _ => .pure

theorem borrows_admitEvents {events : List Event} (quiet : ∀ e ∈ events, ∀ ref, e ≠ .startElement ref) :
    Borrows (admitEvents id events) d :=
  .bind_reads (grammar_eq id d) fun _ known => borrows_startRule_bind fun _ =>
    borrows_insert ((startsOnly_of_read known).withStartEvents quiet)

theorem borrows_complexContent (uses : List GrammarId) (wildcard : Option Wildcard) :
    Borrows (complexContent uses wildcard id) d := by
  have put (segments : List GrammarId) (d' : Draft) :
      Borrows (if segments.isEmpty then pure id else chain (segments ++ [id])) d' := by
    split
    · exact .pure
    · exact borrows_chain _
  cases wildcard with
  | none => exact put uses d
  | some wildcard =>
    refine (borrows_admittedEvents wildcard).bind_yields (yields_admittedEvents_quiet wildcard)
      fun events d₁ quiet => borrows_emptyContent.bind fun last d₂ => ?_
    exact (Borrows.mapM (fun _ _ => borrows_admitEvents quiet) _).bind put

theorem borrows_withEscape : Borrows (withEscape id) d := by
  refine .bind_reads (grammar_eq id d) fun g known => borrows_startRule_bind fun start => ?_
  split
  · exact .pure
  · exact borrows_insert (startsOnly_of_read known).withEscape

theorem borrows_looped : Borrows (looped id) d :=
  .bind_reads (grammar_eq id d) fun _ known => borrows_insert (startsOnly_of_read known).looped

theorem borrows_joined (ids : List GrammarId) : Borrows (joined ids) d := by
  match ids with
  | [] => exact borrows_chain []
  | [_] => exact .pure
  | _ :: _ :: _ => exact borrows_chain _

theorem borrows_particle (minOccurs : Nat) (maxOccurs : MaxOccurs) :
    Borrows (particle minOccurs maxOccurs id) d := by
  refine .bind_reads (grammar_eq id d) fun _ _ => ?_
  cases maxOccurs with
  | bounded count =>
    dsimp only
    split
    · exact .throw
    split
    · exact borrows_emptyContent
    split
    · exact .pure
    refine .bind_reads (checkCopies_eq count) fun _ _ => ?_
    split
    · exact borrows_withEscape.bind fun _ _ => borrows_joined _
    · exact borrows_joined _
  | unbounded =>
    exact .bind_reads (checkCopies_eq _) fun _ _ => borrows_withEscape.bind fun _ _ =>
      borrows_looped.bind fun _ _ => borrows_joined _

theorem borrows_group (compositor : Compositor) (ids : List GrammarId) :
    Borrows (group compositor ids) d := by
  have counted {compose : List Grammar → Except Fault Grammar}
      (only : ∀ parts g, (∀ p ∈ parts, p.StartsOnly d.Starts) → compose parts = .ok g →
        g.StartsOnly d.Starts) :
      Borrows (do
        let parts ← ids.mapM countedGrammar
        insert (← ofExcept (compose parts))) d :=
    .bind_reads (mapM_ofExcept (fun id => countedGrammar_eq id d) ids) fun _ known =>
      .bind_reads rfl fun _ run => borrows_insert
        (only _ _ (startsOnly_of_mapM_read (mapM_read_of_readCounted known).1) run)
  cases compositor with
  | sequence =>
    match ids with
    | [] => exact borrows_emptyContent
    | [id] => exact .bind_reads (grammar_eq id d) fun _ _ => .pure
    | _ :: _ :: _ => exact borrows_chain _
  | choice => exact counted fun _ _ => .choice
  | all => exact counted fun _ _ => .rounds

theorem borrows_mixed : Borrows (mixed id) d :=
  .bind_reads (grammar_eq id d) fun _ known => borrows_insert (startsOnly_of_read known).withText

theorem borrows_forElement : Borrows (forElement id) d :=
  .bind_reads (grammar_eq id d) fun _ known => borrows_insert (startsOnly_of_read known).renumber

/-- A term that is an element adds its name, and nothing else. -/
theorem yields_elementTerm_starts {name : QName} {ref : NameRef}
    (found : d.uris.find? name = some ref) : Yields (elementTerm name) d
      (fun _ d' => ∀ r, d'.Starts r ↔ d.Starts r ∨ r = ref) fun _ _ => True := by
  refine (yields_onTables (UriTable.yields_enterName name d.uris)).bind_ok ?_
  rintro ref' d₁ ⟨frame, grows, found', _⟩
  obtain rfl : ref' = ref := Option.some.inj (found'.symm.trans (grows.extends.find? found))
  have grammars : d₁.grammars = d.grammars := by rw [frame]
  unfold Yields insert
  by_cases room : d₁.grammars.size < grammarLimit
  · simp only [if_pos room]
    intro r
    refine Grammar.has_push.trans (or_congr ?_ ?_)
    · rw [Starts, grammars]
    · simp [Grammar.single, Production.endElement, eq_comm]
  · simp only [if_neg room]

def HasLocal (d : Draft) (ref : NameRef) : Prop := ∃ l ∈ d.locals, l.name = ref

theorem yields_forElement_unchanged (type : GrammarId) :
    Yields (forElement type) d (fun _ _ => True) fun _ d' => d' = d := by
  rcases grammar_bind_eq d type fun g => insert g.renumber with ⟨g, _, run⟩ | ⟨f, run⟩
  · rw [Yields, forElement, run]
    unfold insert
    by_cases room : d.grammars.size < grammarLimit
    · simp only [if_pos room]
    · simp only [if_neg room]
  · rw [Yields, forElement, run]

/-- Declaring a local element adds its name to those of local elements, and none to those that are
started. Where it fails it does nothing. -/
theorem yields_declareLocal_names (name : NameRef) (type : GrammarId) (sound : d.store.Sound) :
    Yields (declareLocal name type) d
      (fun _ d' => (d'.types = d.types ∧ d'.pending = d.pending) ∧
        (∀ ref, d'.Starts ref ↔ d.Starts ref) ∧
        (∀ ref, d'.HasLocal ref ↔ d.HasLocal ref ∨ ref = name) ∧
        ∃ l ∈ d'.locals, l.name = name ∧ l.type = type)
      fun _ d' => d' = d := by
  refine yields_get_bind ?_
  split
  · next found =>
    -- the element shares a grammar, and so its name is among those of local elements already
    obtain ⟨l, mem, name, type, _⟩ := exists_of_localGrammar? found
    refine ⟨⟨rfl, rfl⟩, fun _ => Iff.rfl, fun ref => (or_iff_left_of_imp ?_).symm,
      l, mem, name, type⟩
    rintro rfl
    exact ⟨l, mem, name⟩
  · refine ((((makes_forElement type).adds sound).and borrows_forElement).and
      (yields_forElement_unchanged type)).mono_fails (fun _ _ bad => bad.2) |>.bind ?_
    rintro id d₁ ⟨⟨adds, borrows⟩, _⟩
    have starts (ref : NameRef) : d₁.Starts ref ↔ d.Starts ref :=
      ⟨borrows ref, fun old => old.grow adds.grows⟩
    have frame : d₁.types = d.types ∧ d₁.pending = d.pending ∧ d₁.locals = d.locals := by
      rw [adds.frame]
      exact ⟨rfl, rfl, rfl⟩
    refine ⟨⟨frame.1, frame.2.1⟩, starts, fun ref => ?_, ⟨name, type, id⟩, Array.mem_push_self, rfl, rfl⟩
    simp only [HasLocal, frame.2.2, Array.mem_push, or_and_right, exists_or, exists_eq_left, eq_comm]

end Draft

end ExiSchema
