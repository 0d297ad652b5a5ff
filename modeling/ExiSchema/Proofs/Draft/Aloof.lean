import ExiSchema.Draft.Model
import Mathlib.Data.List.Forall2

/-!
Actions that have nothing to do with how a walk goes on: the options, the stack, the types that are
being compiled and the elements that are put off. Composing grammars and registering them is of that
kind, so it comes to the same whatever stands there, and leaves it as it is.
-/

set_option autoImplicit false

namespace ExiSchema

/-- A change of what a draft keeps for the walk. -/
structure Turn where
  options : Options → Options := id
  stack : List GrammarId → List GrammarId := id
  active : List QName → List QName := id
  pending : List PendingElement → List PendingElement := id

def Draft.turn (t : Turn) (d : Draft) : Draft :=
  { d with
    options := t.options d.options
    stack := t.stack d.stack
    active := t.active d.active
    pending := t.pending d.pending }

namespace Turn

variable {α : Type}

/-- What an action comes to, with the draft that it leaves changed. -/
def result (t : Turn) : EStateM.Result Fault Draft α → EStateM.Result Fault Draft α
  | .ok a d => .ok a (d.turn t)
  | .error f d => .error f (d.turn t)

/-- What the draft has, whatever was there. -/
def ofDraft (d : Draft) : Turn where
  options _ := d.options
  stack _ := d.stack
  active _ := d.active
  pending _ := d.pending

end Turn

open Draft

/-- Before or after the action, a change of what is kept for the walk makes no difference. -/
def Aloof {α : Type} (action : Drafting α) : Prop :=
  ∀ (t : Turn) (d : Draft), action (d.turn t) = t.result (action d)

namespace Aloof

variable {α β : Type} {action : Drafting α} {next : α → Drafting β}

theorem pure {a : α} : Aloof (pure a) := fun _ _ => rfl

theorem throw {fault : Fault} : Aloof (throw fault : Drafting α) := fun _ _ => rfl

theorem ofExcept (r : Except Fault α) : Aloof (Draft.ofExcept r) := by
  intro t d
  cases r <;> rfl

theorem modify {f : Draft → Draft} (same : ∀ t d, f (d.turn t) = (f d).turn t) : Aloof (modify f) :=
  fun t d => congrArg (EStateM.Result.ok ()) (same t d)

theorem bind (first : Aloof action) (rest : ∀ a, Aloof (next a)) : Aloof (action >>= next) := by
  intro t d
  simp only [Bind.bind, EStateM.bind, first t d]
  cases action d with
  | ok a d' => exact rest a t d'
  | error f d' => rfl

/-- What is looked up may not be among what changes. -/
theorem get_bind {next : Draft → Drafting α} (same : ∀ t d, next (d.turn t) = next d)
    (rest : ∀ d, Aloof (next d)) : Aloof (get >>= next) := by
  intro t d
  change next (d.turn t) (d.turn t) = t.result (next d d)
  rw [same, rest]

theorem mapM {f : α → Drafting β} (each : ∀ x, Aloof (f x)) (xs : List α) : Aloof (xs.mapM f) := by
  induction xs with
  | nil => exact .pure
  | cons x xs ih =>
    rw [List.mapM_cons]
    exact (each x).bind fun _ => ih.bind fun _ => .pure

theorem ite {c : Prop} [Decidable c] {other : Drafting α} (yes : c → Aloof action)
    (no : ¬c → Aloof other) : Aloof (if c then action else other) := by
  split
  · exact yes ‹_›
  · exact no ‹_›

end Aloof

namespace Draft

/-- An action of that kind leaves what is kept for the walk as it was. -/
theorem kept_of_aloof {α : Type} {action : Drafting α} (aloof : Aloof action) (d : Draft) :
    (Turn.ofDraft d).result (action d) = action d := (aloof (.ofDraft d) d).symm

theorem aloof_onTables {α : Type} (action : UriTable.Action α) : Aloof (onTables action) := by
  intro t d
  unfold onTables
  have uris : (d.turn t).uris = d.uris := rfl
  rw [uris]
  cases action d.uris <;> rfl

theorem aloof_grammar (id : GrammarId) : Aloof (grammar id) := by
  intro t d
  unfold grammar
  have grammars : (d.turn t).grammars = d.grammars := rfl
  rw [grammars]
  cases d.grammars[id]? <;> rfl

theorem aloof_insert (g : Grammar) : Aloof (insert g) := by
  intro t d
  unfold insert
  have grammars : (d.turn t).grammars = d.grammars := rfl
  simp only [grammars]
  split <;> rfl

theorem aloof_datatype (builtIn : String) : Aloof (datatype builtIn) := by
  intro t d
  unfold datatype
  cases Datatype.ofBuiltIn? builtIn <;> rfl

theorem aloof_startRule (id : GrammarId) (g : Grammar) : Aloof (startRule id g) := by
  intro t d
  unfold startRule
  cases g.rule? 0 <;> rfl

theorem aloof_enterName (name : QName) : Aloof (enterName name) := aloof_onTables _

theorem aloof_chain (parts : List GrammarId) : Aloof (chain parts) :=
  (Aloof.mapM aloof_grammar parts).bind fun _ => (Aloof.ofExcept _).bind aloof_insert

theorem aloof_simpleContent (builtIn : String) : Aloof (simpleContent builtIn) :=
  (aloof_datatype builtIn).bind fun _ => aloof_insert _

theorem aloof_emptyContent : Aloof emptyContent := aloof_insert _

theorem aloof_attributeUse (required : Bool) (name : QName) (builtIn : String) :
    Aloof (attributeUse required name builtIn) :=
  (aloof_datatype builtIn).bind fun _ => (aloof_enterName name).bind fun _ => aloof_insert _

theorem aloof_elementTerm (name : QName) : Aloof (elementTerm name) :=
  (aloof_enterName name).bind fun _ => aloof_insert _

theorem aloof_namespaceRows (uris : List String) : Aloof (namespaceRows uris) :=
  .ite (fun _ => .throw) fun _ => .mapM (fun _ => aloof_onTables _) uris

theorem aloof_wildcardTerm (wildcard : Wildcard) : Aloof (wildcardTerm wildcard) := by
  cases wildcard with
  | any | except _ => exact aloof_insert _
  | among uris => exact (aloof_namespaceRows uris).bind fun _ => aloof_insert _

theorem aloof_admittedEvents (wildcard : Wildcard) : Aloof (admittedEvents wildcard) := by
  cases wildcard with
  | any | except _ => exact .pure
  | among uris => exact (aloof_namespaceRows uris).bind fun _ => .pure

theorem aloof_admitEvents (id : GrammarId) (events : List Event) : Aloof (admitEvents id events) :=
  (aloof_grammar id).bind fun g => (aloof_startRule id g).bind fun _ => aloof_insert _

theorem aloof_complexContent (attributes : List GrammarId) (wildcard : Option Wildcard)
    (content : GrammarId) : Aloof (complexContent attributes wildcard content) := by
  have put (segments : List GrammarId) :
      Aloof (if segments.isEmpty then pure content else chain (segments ++ [content])) :=
    .ite (fun _ => .pure) fun _ => aloof_chain _
  cases wildcard with
  | none => exact put attributes
  | some wildcard =>
    refine (aloof_admittedEvents wildcard).bind fun events => aloof_emptyContent.bind fun last => ?_
    exact (Aloof.mapM (fun id => aloof_admitEvents id events) _).bind put

theorem aloof_complexEmpty (attributes : List GrammarId) (wildcard : Option Wildcard) :
    Aloof (complexEmpty attributes wildcard) :=
  aloof_emptyContent.bind fun _ => aloof_complexContent attributes wildcard _

theorem aloof_withEscape (id : GrammarId) : Aloof (withEscape id) :=
  (aloof_grammar id).bind fun g => (aloof_startRule id g).bind fun _ =>
    .ite (fun _ => .pure) fun _ => aloof_insert _

theorem aloof_looped (id : GrammarId) : Aloof (looped id) :=
  (aloof_grammar id).bind fun _ => aloof_insert _

theorem aloof_joined (parts : List GrammarId) : Aloof (joined parts) := by
  unfold joined
  split
  · exact .pure
  · exact aloof_chain _

theorem aloof_checkCopies (count : Nat) : Aloof (checkCopies count) :=
  .ite (fun _ => .throw) fun _ => .pure

theorem aloof_particle (minOccurs : Nat) (maxOccurs : MaxOccurs) (term : GrammarId) :
    Aloof (particle minOccurs maxOccurs term) := by
  refine (aloof_grammar term).bind fun _ => ?_
  cases maxOccurs with
  | bounded count =>
    refine .ite (fun _ => .throw) fun _ => .ite (fun _ => aloof_emptyContent) fun _ =>
      .ite (fun _ => .pure) fun _ => (aloof_checkCopies count).bind fun _ => ?_
    exact .ite (fun _ => (aloof_withEscape term).bind fun _ => aloof_joined _) fun _ => aloof_joined _
  | unbounded =>
    refine (aloof_checkCopies _).bind fun _ => (aloof_withEscape term).bind fun optional => ?_
    exact (aloof_looped optional).bind fun _ => aloof_joined _

theorem aloof_sequence (terms : List GrammarId) : Aloof (sequence terms) := by
  unfold sequence
  split
  · exact aloof_emptyContent
  · exact (aloof_grammar _).bind fun _ => .pure
  · exact aloof_chain _

theorem aloof_countedGrammar (id : GrammarId) : Aloof (countedGrammar id) :=
  (aloof_grammar id).bind fun _ => .ite (fun _ => .pure) fun _ => .throw

theorem aloof_group (compositor : Compositor) (terms : List GrammarId) :
    Aloof (group compositor terms) := by
  cases compositor with
  | sequence => exact aloof_sequence terms
  | choice | all =>
    exact (Aloof.mapM aloof_countedGrammar terms).bind fun _ => (Aloof.ofExcept _).bind aloof_insert

theorem aloof_mixed (content : GrammarId) : Aloof (mixed content) :=
  (aloof_grammar content).bind fun _ => aloof_insert _

theorem aloof_forElement (type : GrammarId) : Aloof (forElement type) :=
  (aloof_grammar type).bind fun _ => aloof_insert _

theorem aloof_varietyGrammars (builtIn : String) (variety : Variety) :
    Aloof (varietyGrammars builtIn variety) := by
  cases variety with
  | atomic =>
    exact (aloof_simpleContent builtIn).bind fun _ => aloof_emptyContent.bind fun _ => .pure
  | list _ | union _ => exact .throw

theorem aloof_anyTypeGrammar : Aloof anyTypeGrammar := by
  refine .get_bind (fun _ _ => rfl) fun d => ?_
  split
  · exact .pure
  · exact (aloof_insert _).bind fun _ => (Aloof.modify fun _ _ => rfl).bind fun _ => .pure

theorem aloof_declareLocal (name : NameRef) (type : GrammarId) : Aloof (declareLocal name type) := by
  refine .get_bind (fun _ _ => rfl) fun d => ?_
  split
  · exact .pure
  · exact (aloof_forElement type).bind fun _ => (Aloof.modify fun _ _ => rfl).bind fun _ => .pure

theorem aloof_declareType (name : QName) (grammars : GrammarPair) :
    Aloof (declareType name grammars) :=
  (aloof_grammar _).bind fun _ => (aloof_grammar _).bind fun _ => .modify fun _ _ => rfl

theorem aloof_declareGlobal (name : QName) (id : GrammarId) : Aloof (declareGlobal name id) :=
  (aloof_grammar id).bind fun _ => (aloof_enterName name).bind fun _ => .modify fun _ _ => rfl

end Draft

end ExiSchema
