import ExiSchema.Proofs.Draft.Composing
import ExiSchema.Proofs.Model.Mentions
import ExiSchema.Proofs.Table.Entries

/-!
Which names the actions that compose grammars enter, and which numbers they give back: that of a
part, or one that stood for nothing before.
-/

set_option autoImplicit false

namespace ExiSchema

namespace Registration

/-- What the registrations make of the names of a table. -/
def Enter (rs : List Registration) (t u : UriTable) : Prop := t.Gains u (uris rs) (names rs)

theorem Enter.refl (t : UriTable) : Enter [] t t := UriTable.Gains.refl t

theorem Enter.trans {rs rs' : List Registration} {t u v : UriTable} (first : Enter rs t u)
    (second : Enter rs' u v) : Enter (rs ++ rs') t v := by
  have both := UriTable.Gains.trans first second
  rwa [uris, uris, ← List.map_append, names, names, ← List.filterMap_append] at both

/-- Neither the order of registrations nor their number matters. -/
theorem Enter.congr {rs rs' : List Registration} {t u : UriTable} (enter : Enter rs t u)
    (same : ∀ r, r ∈ rs ↔ r ∈ rs') : Enter rs' t u := by
  refine ⟨enter.regular, fun text => (enter.uri text).trans (or_congr_right ?_),
    fun q => (enter.name q).trans (or_congr_right ?_)⟩
  · simp only [uris, List.mem_map, same]
  · simp only [names, List.mem_filterMap, same]

end Registration

open Registration (Enter)

/-- Where the action succeeds, it has entered these names, and the result is as `P` says. -/
def Enters {α : Type} (action : Drafting α) (d : Draft) (rs : List Registration) (P : α → Prop) :
    Prop :=
  Yields action d
    (fun a d' => Enter rs d.uris d'.uris ∧ d.grammars.size ≤ d'.grammars.size ∧ P a)
    fun _ _ => True

namespace Enters

variable {α β : Type} {d : Draft} {action : Drafting α} {next : α → Drafting β}
  {rs rs' : List Registration} {P : α → Prop} {Q : β → Prop}

theorem pure {a : α} (here : P a) : Enters (pure a) d [] P := ⟨.refl _, le_rfl, here⟩

theorem throw {fault : Fault} : Enters (throw fault) d rs P := trivial

theorem bind (first : Enters action d rs P)
    (rest : ∀ a d', d.grammars.size ≤ d'.grammars.size → P a → Enters (next a) d' rs' Q) :
    Enters (action >>= next) d (rs ++ rs') Q := by
  refine Yields.bind first ?_
  rintro a d' ⟨enter, le, here⟩
  refine Yields.mono_ok (rest a d' le here) ?_
  rintro b d'' ⟨enter', le', there⟩
  exact ⟨enter.trans enter', le.trans le', there⟩

theorem bind_quiet (first : Enters action d [] P)
    (rest : ∀ a d', d.grammars.size ≤ d'.grammars.size → P a → Enters (next a) d' rs Q) :
    Enters (action >>= next) d rs Q := first.bind rest

theorem bind_last (first : Enters action d rs P)
    (rest : ∀ a d', d.grammars.size ≤ d'.grammars.size → P a → Enters (next a) d' [] Q) :
    Enters (action >>= next) d rs Q := by
  have both := first.bind rest
  rwa [List.append_nil] at both

theorem of_reads {r : Except Fault α} (reads : action d = Draft.ofExcept r d) :
    Enters action d [] fun _ => True := by
  rw [Enters, Yields, reads]
  cases r with
  | ok a => exact ⟨.refl _, le_rfl, trivial⟩
  | error f => trivial

theorem mapM {f : α → Drafting β} {entered : α → List Registration} (xs : List α)
    (each : ∀ x ∈ xs, ∀ d', Enters (f x) d' (entered x) fun _ => True) :
    Enters (xs.mapM f) d (xs.flatMap entered) fun _ => True := by
  induction xs generalizing d with
  | nil => exact .pure trivial
  | cons x xs ih =>
    rw [List.mapM_cons, List.flatMap_cons]
    refine (each x List.mem_cons_self d).bind fun b d' _ _ => ?_
    exact (ih fun x' mem => each x' (List.mem_cons_of_mem x mem)).bind_last
      fun _ _ _ _ => .pure trivial

end Enters

namespace Draft

variable {d : Draft} {ok : GrammarId → Prop} {id : GrammarId} {ids : List GrammarId}

/-- Numbers that stand for nothing yet are all as `ok` says. -/
def Fresh (d : Draft) (ok : GrammarId → Prop) : Prop := ∀ id, d.grammars.size ≤ id → ok id

theorem Fresh.later {d' : Draft} (fresh : d.Fresh ok) (le : d.grammars.size ≤ d'.grammars.size) :
    d'.Fresh ok := fun id here => fresh id (le.trans here)

theorem enters_insert (fresh : d.Fresh ok) (g : Grammar) :
    Enters (insert g) d [] ok := by
  unfold Enters Yields insert
  by_cases room : d.grammars.size < grammarLimit
  · simp only [if_pos room]
    refine ⟨.refl _, ?_, fresh _ le_rfl⟩
    rw [Array.size_push]
    exact Nat.le_succ _
  · simp only [if_neg room]

theorem enters_onTables {α : Type} {action : UriTable.Action α} {rs : List Registration}
    {P : α → UriTable → Prop}
    (spec : Yields action d.uris (fun a u => P a u ∧ Enter rs d.uris u) fun _ _ => True) :
    Enters (onTables action) d rs fun _ => True := by
  refine (yields_onTables spec).mono ?_ fun _ _ _ => trivial
  rintro a d' ⟨frame, _, enter⟩
  refine ⟨enter, ?_, trivial⟩
  rw [frame]

theorem enters_enterUri (uri : String) : Enters (enterUri uri) d [.ofUri uri] fun _ => True :=
  enters_onTables (UriTable.yields_enterUri_gains uri d.uris)

theorem enters_enterName (q : QName) : Enters (enterName q) d [.ofName q] fun _ => True :=
  enters_onTables (UriTable.yields_enterName_gains q d.uris)

theorem enters_namespaceRows (uris : List String) :
    Enters (namespaceRows uris) d (uris.map .ofUri) fun _ => True := by
  unfold namespaceRows
  split
  · exact .throw
  · rw [List.map_eq_flatMap]
    exact .mapM uris fun uri _ _ => enters_enterUri uri

theorem enters_admittedEvents (wildcard : Wildcard) :
    Enters (admittedEvents wildcard) d wildcard.registrations fun _ => True := by
  cases wildcard with
  | any | except _ => exact .pure trivial
  | among uris => exact (enters_namespaceRows uris).bind_last fun _ _ _ _ => .pure trivial

theorem enters_wildcardTerm (fresh : d.Fresh ok) (wildcard : Wildcard) :
    Enters (wildcardTerm wildcard) d wildcard.registrations ok := by
  cases wildcard with
  | any | except _ => exact enters_insert fresh _
  | among uris =>
    exact (enters_namespaceRows uris).bind_last fun _ _ le _ =>
      enters_insert (fresh.later le) _

theorem enters_elementTerm (fresh : d.Fresh ok) (name : QName) :
    Enters (elementTerm name) d [.ofName name] ok :=
  (enters_enterName name).bind_last fun _ _ le _ =>
    enters_insert (fresh.later le) _

theorem enters_simpleContent (fresh : d.Fresh ok) (builtIn : String) :
    Enters (simpleContent builtIn) d [] ok :=
  (Enters.of_reads (datatype_eq builtIn)).bind_quiet fun _ _ le _ =>
    enters_insert (fresh.later le) _

theorem enters_attributeUse (u : AttributeUse) :
    Enters (attributeUse u.required u.name u.builtIn) d [u.registration] fun _ => True :=
  (Enters.of_reads (datatype_eq u.builtIn)).bind_quiet fun _ _ _ _ =>
    (enters_enterName u.name).bind_last fun _ _ _ _ => enters_insert (fun _ _ => trivial) _

theorem enters_attributesOf (uses : List AttributeUse) :
    Enters (attributesOf uses) d (uses.map AttributeUse.registration) fun _ => True := by
  have each : Enters (attributesOf uses) d
      ((orderedUses d.options uses).flatMap fun u => [u.registration]) fun _ => True :=
    .mapM _ fun u _ _ => enters_attributeUse u
  refine Yields.mono_ok each ?_
  rintro _ d' ⟨enter, le, _⟩
  refine ⟨enter.congr fun r => ?_, le, trivial⟩
  rw [← List.map_eq_flatMap, List.mem_map, List.mem_map]
  simp only [mem_orderedUses]

theorem enters_chain (fresh : d.Fresh ok) (parts : List GrammarId) :
    Enters (chain parts) d [] ok :=
  (Enters.of_reads (mapM_ofExcept (fun id => grammar_eq id d) parts)).bind_quiet fun _ _ le _ =>
    (Enters.of_reads rfl).bind_quiet fun _ _ le' _ =>
      enters_insert (fresh.later (le.trans le')) _

theorem enters_startRule (g : Grammar) : Enters (startRule id g) d [] fun _ => True := by
  unfold Enters Yields startRule
  cases g.rule? 0 with
  | none => trivial
  | some r => exact ⟨.refl _, le_rfl, trivial⟩

theorem enters_admitEvents (fresh : d.Fresh ok) (events : List Event) :
    Enters (admitEvents id events) d [] ok :=
  (Enters.of_reads (grammar_eq id d)).bind_quiet fun g _ le _ =>
    (enters_startRule g).bind_quiet fun _ _ le' _ =>
      enters_insert (fresh.later (le.trans le')) _

theorem enters_complexContent (fresh : d.Fresh ok) (uses : List GrammarId)
    (wildcard : Option Wildcard) (here : ok id) :
    Enters (complexContent uses wildcard id) d (wildcard.elim [] Wildcard.registrations) ok := by
  have put (segments : List GrammarId) (d' : Draft) (le : d.grammars.size ≤ d'.grammars.size) :
      Enters (if segments.isEmpty then pure id else chain (segments ++ [id])) d' [] ok := by
    split
    · exact .pure here
    · exact enters_chain (fresh.later le) _
  cases wildcard with
  | none => exact put uses d le_rfl
  | some wildcard =>
    refine (enters_admittedEvents wildcard).bind_last fun events d₁ le₁ _ => ?_
    refine (enters_insert (fun _ _ => trivial) .endOnly).bind_quiet fun last d₂ le₂ _ => ?_
    have admitted : Enters ((uses ++ [last]).mapM fun id => admitEvents id events) d₂
        ((uses ++ [last]).flatMap fun _ => []) fun _ => True :=
      .mapM _ fun _ _ _ => enters_admitEvents (fun _ _ => trivial) events
    rw [List.flatMap_eq_nil_iff.2 fun _ _ => rfl] at admitted
    exact admitted.bind_quiet fun segments d₃ le₃ _ =>
      put segments d₃ ((le₁.trans le₂).trans le₃)

theorem enters_complexEmpty (fresh : d.Fresh ok) (uses : List GrammarId)
    (wildcard : Option Wildcard) :
    Enters (complexEmpty uses wildcard) d (wildcard.elim [] Wildcard.registrations) ok :=
  (enters_insert fresh _).bind_quiet fun _ _ le here =>
    enters_complexContent (fresh.later le) uses wildcard here

theorem enters_withEscape (fresh : d.Fresh ok) (here : ok id) :
    Enters (withEscape id) d [] ok := by
  refine (Enters.of_reads (grammar_eq id d)).bind_quiet fun g d₁ le₁ _ => ?_
  refine (enters_startRule g).bind_quiet fun start d₂ le₂ _ => ?_
  split
  · exact .pure here
  · exact enters_insert (fresh.later (le₁.trans le₂)) _

theorem enters_looped (fresh : d.Fresh ok) : Enters (looped id) d [] ok :=
  (Enters.of_reads (grammar_eq id d)).bind_quiet fun _ _ le _ =>
    enters_insert (fresh.later le) _

theorem enters_joined (fresh : d.Fresh ok) (here : ∀ id ∈ ids, ok id) :
    Enters (joined ids) d [] ok := by
  match ids, here with
  | [], _ => exact enters_chain fresh []
  | [id], here => exact .pure (here id List.mem_cons_self)
  | _ :: _ :: _, _ => exact enters_chain fresh _

theorem forall_mem_replicate_append {P : GrammarId → Prop} {n : Nat} {rest : List GrammarId}
    (first : P id) (others : ∀ i ∈ rest, P i) : ∀ i ∈ List.replicate n id ++ rest, P i := by
  intro i mem
  rcases List.mem_append.1 mem with copy | other
  · exact List.eq_of_mem_replicate copy ▸ first
  · exact others i other

theorem enters_particle (fresh : d.Fresh ok) (minOccurs : Nat)
    (maxOccurs : MaxOccurs) (here : ok id) : Enters (particle minOccurs maxOccurs id) d [] ok := by
  refine (Enters.of_reads (grammar_eq id d)).bind_quiet fun g d₁ le₁ _ => ?_
  have fresh₁ := fresh.later le₁
  cases maxOccurs with
  | bounded count =>
    dsimp only
    split
    · exact .throw
    split
    · exact enters_insert fresh₁ _
    split
    · exact .pure here
    refine (Enters.of_reads (checkCopies_eq count)).bind_quiet fun _ d₂ le₂ _ => ?_
    have fresh₂ := fresh₁.later le₂
    split
    · refine (enters_withEscape fresh₂ here).bind_quiet fun optional d₃ le₃ there => ?_
      refine enters_joined (fresh₂.later le₃)
        (forall_mem_replicate_append here fun i mem => ?_)
      exact List.eq_of_mem_replicate mem ▸ there
    · exact enters_joined fresh₂ fun i mem => List.eq_of_mem_replicate mem ▸ here
  | unbounded =>
    refine (Enters.of_reads (checkCopies_eq _)).bind_quiet fun _ d₂ le₂ _ => ?_
    have fresh₂ := fresh₁.later le₂
    refine (enters_withEscape fresh₂ here).bind_quiet fun optional d₃ le₃ _ => ?_
    have fresh₃ := fresh₂.later le₃
    refine (enters_looped fresh₃).bind_quiet fun loop d₄ le₄ there => ?_
    refine enters_joined (fresh₃.later le₄)
      (forall_mem_replicate_append here fun i mem => ?_)
    exact List.mem_singleton.1 mem ▸ there

theorem enters_group (fresh : d.Fresh ok) (compositor : Compositor)
    (here : ∀ id ∈ ids, ok id) : Enters (group compositor ids) d [] ok := by
  have counted (compose : List Grammar → Except Fault Grammar) :
      Enters (do
        let parts ← ids.mapM countedGrammar
        insert (← ofExcept (compose parts))) d [] ok :=
    (Enters.of_reads (mapM_ofExcept (fun id => countedGrammar_eq id d) ids)).bind_quiet
      fun _ _ le _ => (Enters.of_reads rfl).bind_quiet fun _ _ le' _ =>
        enters_insert (fresh.later (le.trans le')) _
  cases compositor with
  | sequence =>
    match ids, here with
    | [], _ => exact enters_insert fresh _
    | [id], here =>
      exact (Enters.of_reads (grammar_eq id d)).bind_quiet fun _ _ _ _ =>
        .pure (here id List.mem_cons_self)
    | _ :: _ :: _, _ => exact enters_chain fresh _
  | choice => exact counted Grammar.choice
  | all => exact counted Grammar.rounds

theorem enters_mixed (fresh : d.Fresh ok) : Enters (mixed id) d [] ok :=
  (Enters.of_reads (grammar_eq id d)).bind_quiet fun _ _ le _ =>
    enters_insert (fresh.later le) _

theorem enters_forElement (fresh : d.Fresh ok) :
    Enters (forElement id) d [] ok :=
  (Enters.of_reads (grammar_eq id d)).bind_quiet fun _ _ le _ =>
    enters_insert (fresh.later le) _

end Draft

end ExiSchema
