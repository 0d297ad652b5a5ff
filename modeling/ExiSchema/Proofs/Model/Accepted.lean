import ExiSchema.Proofs.Actions
import ExiSchema.Proofs.Model.Grammars

/-!
The exact language of the grammar of a particle. It has every word that the particle stands for, and
beyond these the words of a repetition that breaks off where its last copy has come back to its
start. Where no repetition inside the particle has such words of its own, the two languages are
equal.
-/

set_option autoImplicit false

open Computability

namespace ExiSchema

variable {t : UriTable}

def Wildcard.Entered (t : UriTable) : Wildcard → Prop
  | .any | .except _ => True
  | .among uris => ∀ uri ∈ uris, ∃ row, t.lookup uri = some row

mutual

/-- The table has every name in a particle, those inside the types of its elements aside. -/
def Particle.Entered (t : UriTable) : Particle → Prop
  | ⟨_, _, term⟩ => term.Entered t
termination_by structural p => p

def Term.Entered (t : UriTable) : Term → Prop
  | .element decl => ∃ ref, t.find? decl.name = some ref
  | .wildcard wildcard => wildcard.Entered t
  | .group _ particles => AllEntered t particles
termination_by structural p => p

def AllEntered (t : UriTable) : List Particle → Prop
  | [] => True
  | p :: ps => p.Entered t ∧ AllEntered t ps
termination_by structural p => p

end

theorem Wildcard.Entered.grow {u : UriTable} (ext : t.Extends u) {wildcard : Wildcard}
    (entered : wildcard.Entered t) : wildcard.Entered u := by
  cases wildcard with
  | any | except _ => trivial
  | among uris =>
    intro uri mem
    obtain ⟨row, found⟩ := entered uri mem
    exact ⟨row, ext.lookup found⟩

mutual

theorem Particle.entered_grow {u : UriTable} (ext : t.Extends u) : ∀ p : Particle,
    p.Entered t → p.Entered u
  | ⟨_, _, term⟩, entered => Term.entered_grow ext term entered
termination_by structural p => p

theorem Term.entered_grow {u : UriTable} (ext : t.Extends u) : ∀ term : Term,
    term.Entered t → term.Entered u
  | .element _, ⟨ref, found⟩ => ⟨ref, ext.find? found⟩
  | .wildcard _, entered => Wildcard.Entered.grow ext entered
  | .group _ ps, entered => allEntered_grow ext ps entered
termination_by structural term => term

theorem allEntered_grow {u : UriTable} (ext : t.Extends u) : ∀ ps : List Particle,
    AllEntered t ps → AllEntered u ps
  | [], _ => trivial
  | p :: ps, entered => ⟨Particle.entered_grow ext p entered.1, allEntered_grow ext ps entered.2⟩
termination_by structural ps => ps

end

mutual

/-- What the grammar of a particle accepts. -/
def Particle.accepted (t : UriTable) : Particle → Language Event
  | ⟨minOccurs, maxOccurs, term⟩ =>
    repeatedOpen minOccurs maxOccurs (term.accepted t) (term.back t)
termination_by structural p => p

def Term.accepted (t : UriTable) : Term → Language Event
  | .element decl => {w | ∃ ref, t.find? decl.name = some ref ∧ w = [.startElement ref]}
  | .wildcard wildcard => wildcard.language t
  | .group .sequence particles => acceptedSequence t particles
  | .group .choice particles => if particles.isEmpty then 1 else acceptedChoice t particles
  | .group .all particles => (acceptedChoice t particles)∗
termination_by structural p => p

def acceptedSequence (t : UriTable) : List Particle → Language Event
  | [] => 1
  | p :: ps => p.accepted t * acceptedSequence t ps
termination_by structural p => p

def acceptedChoice (t : UriTable) : List Particle → Language Event
  | [] => 0
  | p :: ps => p.accepted t + acceptedChoice t ps
termination_by structural p => p

/-- What leads a run through the grammar of a particle back to its start. -/
def Particle.back (t : UriTable) : Particle → Language Event
  | ⟨minOccurs, maxOccurs, term⟩ =>
    repeatedBack minOccurs maxOccurs (term.accepted t) (term.back t)
termination_by structural p => p

def Term.back (t : UriTable) : Term → Language Event
  | .element _ | .wildcard _ => 1
  | .group .sequence particles => backOfFirst t particles
  | .group .choice _ => 1
  | .group .all particles => (acceptedChoice t particles)∗
termination_by structural p => p

def backOfFirst (t : UriTable) : List Particle → Language Event
  | [] => 1
  | p :: _ => p.back t
termination_by structural p => p

end

/-- A grammar with this language and these words back to its start. -/
structure Grammar.Behaves (g : Grammar) (l back : Language Event) : Prop where
  wellFormed : g.WellFormed
  language : g.language = l
  restarts : g.restarts = back

/-- The same of the grammars of some particles, put together in each of the ways of a group. -/
structure AllBehave (t : UriTable) (ps : List Particle) (gs : List Grammar) : Prop where
  wellFormed : ∀ g ∈ gs, g.WellFormed
  empty : gs.isEmpty = ps.isEmpty
  sequence : (gs.map Grammar.language).prod = acceptedSequence t ps
  choice : (gs.map Grammar.language).sum = acceptedChoice t ps
  first : ∀ g, gs.head? = some g → g.restarts = backOfFirst t ps

theorem AllBehave.grouped_sequence {ps : List Particle} {gs : List Grammar}
    (all : AllBehave t ps gs) {g : Grammar} (run : Grammar.joined gs = .ok g) :
    g.Behaves (acceptedSequence t ps) (backOfFirst t ps) := by
  refine ⟨.joined all.wellFormed run,
    (Grammar.language_joined all.wellFormed run).trans all.sequence, ?_⟩
  cases gs with
  | nil =>
    cases ps with
    | nil =>
      cases run
      exact Grammar.restarts_endOnly
    | cons p ps => cases all.empty
  | cons h hs => exact (Grammar.restarts_joined all.wellFormed run).trans (all.first h rfl)

theorem AllBehave.grouped_choice {ps : List Particle} {gs : List Grammar}
    (all : AllBehave t ps gs) {g : Grammar} (run : Grammar.choice gs = .ok g) :
    g.Behaves (if ps.isEmpty then 1 else acceptedChoice t ps) 1 := by
  rw [← all.empty, ← all.choice]
  have wf : g.WellFormed := .choice all.wellFormed run
  cases gs with
  | nil =>
    cases run
    exact ⟨wf, Grammar.language_endOnly, Grammar.restarts_endOnly⟩
  | cons h hs =>
    exact ⟨wf, Grammar.language_choice all.wellFormed run, Grammar.restarts_choice run⟩

theorem AllBehave.grouped {ps : List Particle} {gs : List Grammar} (all : AllBehave t ps gs)
    {compositor : Compositor} {g : Grammar} (run : Grammar.grouped compositor gs = .ok g) :
    g.Behaves ((Term.group compositor ps).accepted t) ((Term.group compositor ps).back t) := by
  cases compositor with
  | sequence => exact all.grouped_sequence run
  | choice =>
    rw [Grammar.grouped] at run
    split at run
    · exact all.grouped_choice run
    · cases run
  | all =>
    rw [Grammar.grouped] at run
    split at run
    · change g.Behaves (acceptedChoice t ps)∗ (acceptedChoice t ps)∗
      rw [← all.choice]
      exact ⟨.rounds all.wellFormed run, Grammar.language_rounds all.wellFormed run,
        Grammar.restarts_rounds all.wellFormed run⟩
    · cases run

theorem Grammar.behaves_oneOf (events : List Event) (visible : .epsilon ∉ events)
    (goOn : .endElement ∉ events) :
    (Grammar.oneOf events).Behaves {w | ∃ e ∈ events, w = [e]} 1 :=
  ⟨wellFormed_oneOf goOn, language_oneOf visible, restarts_oneOf events⟩

theorem Naming.rows_eq_ok {ν : Naming} {uris : List String} {rows : List Nat}
    (run : ν.rows uris = .ok rows) : rows = uris.map ν.uri := by
  unfold Naming.rows at run
  split at run
  · cases run
  · clear * - run
    induction uris generalizing rows with
    | nil =>
      cases run
      rfl
    | cons uri uris ih =>
      rw [List.mapM_cons] at run
      obtain ⟨row, head, rest⟩ := except_bind_eq_ok.1 run
      obtain ⟨rows, tail, last⟩ := except_bind_eq_ok.1 rest
      obtain ⟨_, _, here⟩ := except_bind_eq_ok.1 head
      cases here
      cases last
      rw [List.map_cons, ← ih tail]

/-- The events of listed namespaces, whichever numbering of the table's rows they are taken from. -/
theorem oneEvent_rows {ν : Naming} (fits : t.Fits ν) {uris : List String}
    (entered : (Wildcard.among uris).Entered t) (event : Nat → Event) :
    ({w | ∃ e ∈ (uris.map ν.uri).map event, w = [e]} : Language Event) =
      {w | ∃ uri ∈ uris, ∃ row, t.lookup uri = some row ∧ w = [event row]} := by
  ext w
  constructor
  · rintro ⟨e, mem, rfl⟩
    obtain ⟨row, inner, rfl⟩ := List.mem_map.1 mem
    obtain ⟨uri, inside, rfl⟩ := List.mem_map.1 inner
    obtain ⟨row, found⟩ := entered uri inside
    exact ⟨uri, inside, row, found, by rw [fits.uri uri row found]⟩
  · rintro ⟨uri, inside, row, found, rfl⟩
    refine ⟨_, List.mem_map_of_mem (List.mem_map_of_mem inside), ?_⟩
    rw [fits.uri uri row found]

theorem Wildcard.behaves {ν : Naming} (fits : t.Fits ν) {wildcard : Wildcard}
    (entered : wildcard.Entered t) {events : List Event}
    (run : ν.elementEvents wildcard = .ok events) :
    (Grammar.oneOf events).Behaves (wildcard.language t) 1 := by
  have any : (Grammar.oneOf [.startElementAny]).Behaves (eventWord .startElementAny) 1 := by
    have one := Grammar.behaves_oneOf [.startElementAny] (by simp) (by simp)
    simp only [List.mem_singleton, exists_eq_left] at one
    exact one
  cases wildcard with
  | any | except _ =>
    cases run
    exact any
  | among uris =>
    obtain ⟨rows, known, rest⟩ := except_bind_eq_ok.1 run
    cases rest
    have list := Grammar.behaves_oneOf (rows.map .startElementNs) (by simp) (by simp)
    rw [Naming.rows_eq_ok known] at list ⊢
    have same := oneEvent_rows fits entered .startElementNs
    exact ⟨list.wellFormed, list.language.trans same, list.restarts⟩

theorem allBehave_nil : AllBehave t [] [] := ⟨by simp, rfl, rfl, rfl, by simp⟩

theorem AllBehave.cons {p : Particle} {ps : List Particle} {g : Grammar} {gs : List Grammar}
    (here : g.Behaves (p.accepted t) (p.back t)) (all : AllBehave t ps gs) :
    AllBehave t (p :: ps) (g :: gs) := by
  refine ⟨List.forall_mem_cons.2 ⟨here.wellFormed, all.wellFormed⟩, rfl, ?_, ?_, ?_⟩
  · rw [List.map_cons, List.prod_cons, here.language, all.sequence]
    rfl
  · rw [List.map_cons, List.sum_cons, here.language, all.choice]
    rfl
  · rintro h ⟨⟩
    exact here.restarts

mutual

/-- The grammar of a particle accepts what `Particle.accepted` says. -/
theorem Particle.behaves {ν : Naming} (fits : t.Fits ν) : ∀ (p : Particle) {g : Grammar},
    p.Entered t → p.grammar ν = .ok g → g.Behaves (p.accepted t) (p.back t)
  | ⟨minOccurs, maxOccurs, term⟩, g, entered, run => by
    obtain ⟨h, built, repeated⟩ := except_bind_eq_ok.1 run
    have inner := Term.behaves fits term entered built
    refine ⟨.repeated inner.wellFormed repeated, ?_, ?_⟩
    · rw [Grammar.language_repeated inner.wellFormed repeated, inner.language, inner.restarts]
      rfl
    · rw [Grammar.restarts_repeated inner.wellFormed repeated, inner.language, inner.restarts]
      rfl
termination_by structural p => p

theorem Term.behaves {ν : Naming} (fits : t.Fits ν) : ∀ (term : Term) {g : Grammar},
    term.Entered t → term.grammar ν = .ok g → g.Behaves (term.accepted t) (term.back t)
  | .element decl, g, entered, run => by
    obtain ⟨_, _, single⟩ := except_bind_eq_ok.1 run
    cases single
    obtain ⟨ref, found⟩ := entered
    rw [fits.name _ ref found]
    have one := Grammar.behaves_oneOf [.startElement ref] (by simp) (by simp)
    refine ⟨one.wellFormed, one.language.trans ?_, one.restarts⟩
    ext w
    simp only [Term.accepted, found, List.mem_singleton, exists_eq_left, Option.some.injEq,
      exists_eq_left']
  | .wildcard wildcard, g, entered, run => by
    obtain ⟨events, known, one⟩ := except_bind_eq_ok.1 run
    cases one
    exact Wildcard.behaves fits entered known
  | .group compositor particles, g, entered, run => by
    obtain ⟨parts, built, grouped⟩ := except_bind_eq_ok.1 run
    exact (allBehave fits particles entered built).grouped grouped
termination_by structural term => term

theorem allBehave {ν : Naming} (fits : t.Fits ν) : ∀ (ps : List Particle) {gs : List Grammar},
    AllEntered t ps → grammarsOf ν ps = .ok gs → AllBehave t ps gs
  | [], gs, entered, run => by
    cases run
    exact allBehave_nil
  | p :: ps, gs, entered, run => by
    obtain ⟨g, head, rest⟩ := except_bind_eq_ok.1 run
    obtain ⟨gs, tail, last⟩ := except_bind_eq_ok.1 rest
    cases last
    exact .cons (Particle.behaves fits p entered.1 head) (allBehave fits ps entered.2 tail)
termination_by structural ps => ps

end

mutual

/-- The grammar of a particle accepts every word that the particle stands for. -/
theorem Particle.language_le_accepted : ∀ p : Particle, p.language t ≤ p.accepted t
  | ⟨_, _, term⟩ =>
    (repeated_le_repeatedOpen _ _ _ _).trans (repeatedOpen_mono term.language_le_accepted)
termination_by structural p => p

theorem Term.language_le_accepted : ∀ term : Term, term.language t ≤ term.accepted t
  | .element _ => le_rfl
  | .wildcard _ => le_rfl
  | .group .sequence ps => sequenceLanguage_le_accepted ps
  | .group .choice ps => by
    simp only [Term.language, Term.accepted]
    split
    · exact le_rfl
    · exact choiceLanguage_le_accepted ps
  | .group .all ps => kstar_mono (choiceLanguage_le_accepted ps)
termination_by structural term => term

theorem sequenceLanguage_le_accepted : ∀ ps : List Particle,
    sequenceLanguage t ps ≤ acceptedSequence t ps
  | [] => le_rfl
  | p :: ps => mul_le_mul' p.language_le_accepted (sequenceLanguage_le_accepted ps)
termination_by structural ps => ps

theorem choiceLanguage_le_accepted : ∀ ps : List Particle,
    choiceLanguage t ps ≤ acceptedChoice t ps
  | [] => le_rfl
  | p :: ps => add_le_add p.language_le_accepted (choiceLanguage_le_accepted ps)
termination_by structural ps => ps

end

mutual

/-- A particle and the particles that its content is put together of. -/
def Particle.inside : Particle → List Particle
  | ⟨minOccurs, maxOccurs, term⟩ => ⟨minOccurs, maxOccurs, term⟩ :: term.inside
termination_by structural p => p

def Term.inside : Term → List Particle
  | .element _ | .wildcard _ => []
  | .group _ particles => insideAll particles
termination_by structural p => p

def insideAll : List Particle → List Particle
  | [] => []
  | p :: ps => p.inside ++ insideAll ps
termination_by structural p => p

end

/-- Where a repetition breaks off because a run has come back to the start of a copy that may be left
out, it has read a word that the particle stands for. -/
def Particle.StopsWhole (t : UriTable) (p : Particle) : Prop :=
  ∀ k, p.minOccurs ≤ k → p.maxOccurs.allows (k + 1) →
    p.term.accepted t ^ k * p.term.back t ≤ p.language t

theorem Particle.stopsWhole_of_accepted_eq {p : Particle} (exact_ : p.accepted t = p.language t) :
    p.StopsWhole t := by
  obtain ⟨minOccurs, maxOccurs, term⟩ := p
  intro k min allowed w word
  rw [← exact_]
  exact ⟨k, min, .inr ⟨allowed, word⟩⟩

theorem Particle.accepted_eq_of_term {minOccurs : Nat} {maxOccurs : MaxOccurs} {term : Term}
    (inner : term.accepted t = term.language t)
    (whole : (Particle.mk minOccurs maxOccurs term).StopsWhole t) :
    (Particle.mk minOccurs maxOccurs term).accepted t =
      (Particle.mk minOccurs maxOccurs term).language t := by
  refine le_antisymm ?_ (Particle.language_le_accepted _)
  rintro w ⟨k, min, ⟨allowed, word⟩ | ⟨allowed, word⟩⟩
  · rw [inner] at word
    exact ⟨k, min, allowed, word⟩
  · exact whole k min allowed word

mutual

theorem Particle.accepted_eq_language : ∀ p : Particle, (∀ q ∈ p.inside, q.StopsWhole t) →
    p.accepted t = p.language t
  | ⟨_, _, term⟩, whole =>
    Particle.accepted_eq_of_term
      (term.accepted_eq_language fun q mem => whole q (List.mem_cons_of_mem _ mem))
      (whole _ List.mem_cons_self)
termination_by structural p => p

theorem Term.accepted_eq_language : ∀ term : Term, (∀ q ∈ term.inside, q.StopsWhole t) →
    term.accepted t = term.language t
  | .element _, _ => rfl
  | .wildcard _, _ => rfl
  | .group .sequence ps, whole => (accepted_eq_languages ps whole).1
  | .group .choice ps, whole => by
    simp only [Term.language, Term.accepted, (accepted_eq_languages ps whole).2]
  | .group .all ps, whole => congrArg KStar.kstar (accepted_eq_languages ps whole).2
termination_by structural term => term

theorem accepted_eq_languages : ∀ ps : List Particle, (∀ q ∈ insideAll ps, q.StopsWhole t) →
    acceptedSequence t ps = sequenceLanguage t ps ∧ acceptedChoice t ps = choiceLanguage t ps
  | [], _ => ⟨rfl, rfl⟩
  | p :: ps, whole => by
    have here := p.accepted_eq_language fun q mem => whole q (List.mem_append_left _ mem)
    have rest := accepted_eq_languages ps fun q mem => whole q (List.mem_append_right _ mem)
    exact ⟨congrArg₂ (· * ·) here rest.1, congrArg₂ (· + ·) here rest.2⟩
termination_by structural ps => ps

end

mutual

theorem Particle.inside_trans : ∀ p : Particle, ∀ q ∈ p.inside, ∀ r ∈ q.inside, r ∈ p.inside
  | ⟨_, _, term⟩, q, mem, r, inner => by
    rcases List.mem_cons.1 mem with rfl | later
    · exact inner
    · exact List.mem_cons_of_mem _ (term.inside_trans q later r inner)
termination_by structural p => p

theorem Term.inside_trans : ∀ term : Term, ∀ q ∈ term.inside, ∀ r ∈ q.inside, r ∈ term.inside
  | .element _, _, mem, _, _ => by cases mem
  | .wildcard _, _, mem, _, _ => by cases mem
  | .group _ ps, q, mem, r, inner => insideAll_trans ps q mem r inner
termination_by structural term => term

theorem insideAll_trans : ∀ ps : List Particle, ∀ q ∈ insideAll ps, ∀ r ∈ q.inside,
    r ∈ insideAll ps
  | [], _, mem, _, _ => by cases mem
  | p :: ps, q, mem, r, inner => by
    rcases List.mem_append.1 mem with here | later
    · exact List.mem_append_left _ (p.inside_trans q here r inner)
    · exact List.mem_append_right _ (insideAll_trans ps q later r inner)
termination_by structural ps => ps

end

/-- The grammars of a particle and of all particles in it are exact if and only if none of their
repetitions breaks off in the middle of a copy. -/
theorem Particle.accepted_eq_language_iff (p : Particle) :
    (∀ q ∈ p.inside, q.accepted t = q.language t) ↔ ∀ q ∈ p.inside, q.StopsWhole t :=
  ⟨fun all q mem => stopsWhole_of_accepted_eq (all q mem),
    fun all q mem => q.accepted_eq_language fun r inner => all r (p.inside_trans q mem r inner)⟩

end ExiSchema
