import ExiSchema.Proofs.Grammar.Alike
import ExiSchema.Proofs.Grammar.Lingering
import ExiSchema.Proofs.Grammar.Trim
import ExiSchema.Proofs.Model.Accepted
import ExiSchema.Proofs.Model.Faults

/-!
Attributes and what a wildcard admits between them, from the tables to the words that are accepted.
Whatever the rows of its namespaces, a wildcard stands for the same words; and as no run comes back to
where an attribute starts, what is admitted there comes before the attribute and nowhere else.
-/

set_option autoImplicit false

open Computability

namespace ExiSchema

variable {t u : UriTable} {ν : Naming} {events : List Event} {wildcard : Wildcard}

namespace UriTable

/-- The rows of a list of namespaces, which may not be empty. -/
def enterRows (uris : List String) : Action (List Nat) :=
  if uris.isEmpty then throw .emptyNamespaceList else uris.mapM enterUri

/-- Enters the namespaces of a wildcard, for the events of the attributes that it admits. -/
def admission : Wildcard → Action (List Event)
  | .any | .except _ => return [.attributeAny]
  | .among uris => return (← enterRows uris).map .attributeNs

/-- The row is that of a text that the tables can hold. -/
def Gives (t : UriTable) (uri : String) (row : Nat) : Prop :=
  t.lookup uri = some row ∧ Text.isAscii uri = true

theorem yields_mapM_enterUri (uris : List String) (t : UriTable) :
    Yields (uris.mapM enterUri) t
      (fun rows u => t.Grows u ∧ List.Forall₂ u.Gives uris rows)
      fun f _ => f ∈ uris.flatMap Label.faults ∨
        f = .memoryAllocation ∧ Table.rowLimit < t.size + uris.length := by
  induction uris generalizing t with
  | nil => exact yields_pure ⟨.refl t, .nil⟩
  | cons uri uris ih =>
    rw [List.mapM_cons]
    refine (((yields_enterUri uri t).and (yields_enterUri_room uri t)).mono_fails ?_).bind ?_
    · rintro f _ ⟨_, ⟨fault, full⟩ | bad⟩
      · exact .inr ⟨fault, by simp only [List.length_cons]; omega⟩
      · exact .inl (List.mem_append_left _ (Label.mem_faults bad))
    · rintro row u ⟨⟨grows, found, ascii⟩, size⟩
      refine ((ih u).mono_fails ?_).bind ?_
      · rintro f _ (mem | ⟨fault, full⟩)
        · exact .inl (List.mem_append_right _ mem)
        · exact .inr ⟨fault, by simp only [List.length_cons]; omega⟩
      · rintro rows v ⟨more, all⟩
        exact yields_pure ⟨grows.trans more, .cons ⟨more.extends.lookup found, ascii⟩ all⟩

/-- The events are those of the wildcard over every numbering of the table's names. -/
structure Admits (u : UriTable) (wildcard : Wildcard) (events : List Event) : Prop where
  entered : wildcard.Entered u
  events : ∀ ν, u.Fits ν → ν.attributeEvents wildcard = .ok events

theorem entered_of_gives {uris : List String} {rows : List Nat}
    (all : List.Forall₂ u.Gives uris rows) : (Wildcard.among uris).Entered u := by
  induction all with
  | nil => simp [Wildcard.Entered]
  | cons first _ ih => exact List.forall_mem_cons.2 ⟨⟨_, first.1⟩, ih⟩

theorem rows_of_gives {uris : List String} {rows : List Nat} (all : List.Forall₂ u.Gives uris rows)
    (fits : u.Fits ν) : (uris.mapM fun uri => do
      let _ ← Label.ofText uri
      return ν.uri uri) = .ok rows := by
  induction all with
  | nil => rfl
  | cons first _ ih =>
    rw [List.mapM_cons, Label.ofText_eq_ok first.2, ih, fits.uri _ _ first.1]
    rfl

theorem yields_admission (wildcard : Wildcard) (t : UriTable) :
    Yields (admission wildcard) t (fun events u => t.Grows u ∧ u.Admits wildcard events)
      fun f _ => f ∈ wildcard.faults ∨ ∃ uris, wildcard = .among uris ∧
        f = .memoryAllocation ∧ Table.rowLimit < t.size + uris.length := by
  match wildcard with
  | .any | .except _ => exact yields_pure ⟨.refl t, trivial, fun _ _ => rfl⟩
  | .among [] => exact yields_throw (.inl (List.mem_singleton.2 rfl))
  | .among (uri :: uris) =>
    refine ((yields_mapM_enterUri (uri :: uris) t).mono_fails ?_).bind ?_
    · rintro f _ (refused | full)
      · exact .inl refused
      · exact .inr ⟨_, rfl, full⟩
    · rintro rows u ⟨grows, all⟩
      refine yields_pure ⟨grows, entered_of_gives all, fun ν fits => ?_⟩
      simp only [Naming.attributeEvents, Naming.rows, List.isEmpty_cons, Bool.false_eq_true,
        if_false, rows_of_gives all fits]
      rfl

/-- Two tables that a third one has in common admit the same. -/
theorem Admits.unique {v : UriTable} {events' : List Event} (here : t.Admits wildcard events)
    (there : u.Admits wildcard events') (left : t.Extends v) (right : u.Extends v) :
    events = events' := by
  have one := here.events v.naming (v.fits_naming.of_extends left)
  have two := there.events v.naming (v.fits_naming.of_extends right)
  exact Except.ok.inj (one.symm.trans two)

theorem Admits.plain (admits : u.Admits wildcard events) :
    .epsilon ∉ events ∧ .endElement ∉ events := by
  have run := admits.events u.naming u.fits_naming
  cases wildcard with
  | any | except _ =>
    cases run
    simp
  | among uris =>
    obtain ⟨rows, _, rest⟩ := except_bind_eq_ok.1 run
    cases rest
    simp

theorem Admits.oneOfEvents_eq (admits : u.Admits wildcard events) :
    oneOfEvents events = wildcard.attributes u := by
  have run := admits.events u.naming u.fits_naming
  cases wildcard with
  | any | except _ =>
    cases run
    simp only [oneOfEvents, List.mem_singleton, exists_eq_left]
    rfl
  | among uris =>
    obtain ⟨rows, known, rest⟩ := except_bind_eq_ok.1 run
    cases rest
    rw [Naming.rows_eq_ok known]
    exact oneEvent_rows u.fits_naming admits.entered .attributeNs

/-- With or without a wildcard: what was admitted, over the tables that were left. -/
theorem admits_of_run {given : Option Wildcard} {admitted : Option (List Event)}
    (run : (given.mapM admission) t = .ok admitted u) :
    t.Extends u ∧ Option.Rel u.Admits given admitted := by
  cases given with
  | none =>
    cases run
    exact ⟨.refl t, .none⟩
  | some wildcard =>
    rw [Option.mapM_some, map_eq_pure_bind] at run
    obtain ⟨events, v, first, rest⟩ := bind_eq_ok.1 run
    cases rest
    obtain ⟨grows, admits⟩ := (yields_admission wildcard t).ok_of_eq first
    exact ⟨grows.extends, .some admits⟩

theorem plain_of_admits {given : Option Wildcard} {admitted : Option (List Event)}
    (admits : Option.Rel u.Admits given admitted) : ∀ events ∈ admitted, .endElement ∉ events := by
  rintro events ⟨⟩
  cases admits with
  | some here => exact here.plain.2

/-- The same wildcard admits the same from the same tables on, and as long as no table is lost. -/
theorem admitted_unique {given : Option Wildcard} {s v : UriTable}
    {admitted admitted' : Option (List Event)} (run : (given.mapM admission) t = .ok admitted u)
    (run' : (given.mapM admission) s = .ok admitted' v)
    (akin : s = t ∨ ∃ w, u.Extends w ∧ v.Extends w) : admitted' = admitted := by
  -- from the same tables the same run; else both runs are read over a table that has all rows
  rcases akin with rfl | ⟨w, left, right⟩
  · cases run.symm.trans run'
    rfl
  · have here := (admits_of_run run).2
    have there := (admits_of_run run').2
    cases here with
    | none =>
      cases there with
      | none => rfl
    | some here =>
      cases there with
      | some there => rw [here.unique there left right]

end UriTable

/-- The grammar is that of the attribute, over the rows of the table. -/
def AttributeUse.IsGrammar (a : AttributeUse) (t : UriTable) (p : Grammar) : Prop :=
  ∃ ref value, t.find? a.name = some ref ∧ Datatype.ofBuiltIn? a.builtIn = some value ∧
    p = if a.required then Grammar.single (.attribute ref value)
      else (Grammar.single (.attribute ref value)).withEscape

namespace Grammar

variable {g c p : Grammar} {uses : List AttributeUse} {parts : List Grammar}

theorem leads_withEscape_iff {i j : Nat} : g.withEscape.Leads i j ↔ g.Leads i j := by
  simp only [leads_iff, step_withEscape_iff]

theorem not_leads_single (e : Event) (i : Nat) : ¬ (single e).Leads i 0 := by
  rw [leads_iff, single_eq_oneOf]
  rintro ⟨w, step⟩
  cases (step_oneOf_iff.1 step).2.1

theorem not_leads_endOnly (i j : Nat) : ¬ endOnly.Leads i j := by
  rintro ⟨r, p, rule, mem, target⟩
  match i, rule with
  | 0, rule =>
    cases rule
    cases List.mem_singleton.1 mem
    cases target
  | n + 1, rule => cases rule

/-- What stands before the content: the attributes, and with a wildcard one part more. -/
def attributeParts (parts : List Grammar) : Option (List Event) → List Grammar
  | none => parts
  | some events => (parts ++ [endOnly]).map (·.withStartEvents events)

theorem complex_eq (parts : List Grammar) (admitted : Option (List Event)) (c : Grammar) :
    complex parts admitted c = if (attributeParts parts admitted).isEmpty then .ok c
      else sequence (attributeParts parts admitted ++ [c]) := by
  cases admitted <;> rfl

theorem language_complex {admitted : Option (List Event)} (wf : ∀ p ∈ parts, p.WellFormed)
    (wfc : c.WellFormed) (goOn : ∀ events ∈ admitted, .endElement ∉ events)
    (run : complex parts admitted c = .ok g) :
    g.language = ((attributeParts parts admitted).map language).prod * c.language := by
  have stand : ∀ p ∈ attributeParts parts admitted, p.WellFormed := by
    cases admitted with
    | none => exact wf
    | some events =>
      intro p mem
      obtain ⟨q, inner, rfl⟩ := List.mem_map.1 mem
      apply WellFormed.withStartEvents _ (goOn events rfl)
      rcases List.mem_append.1 inner with use | last
      · exact wf q use
      · exact List.mem_singleton.1 last ▸ wellFormed_endOnly
  rw [complex_eq] at run
  split at run
  · next none =>
    cases run
    simp [List.isEmpty_iff.1 none]
  · have all : ∀ p ∈ attributeParts parts admitted ++ [c], p.WellFormed := by
      simpa [or_imp, forall_and] using ⟨stand, wfc⟩
    rw [language_sequence all run]
    simp

/-- What is admitted comes before each part and after the last, if no run comes back to where a part
starts. -/
theorem prod_attributeParts (visible : .epsilon ∉ events) (wf : ∀ p ∈ parts, p.WellFormed)
    (never : ∀ p ∈ parts, ∀ i, ¬ p.Leads i 0) :
    ((attributeParts parts (some events)).map language).prod =
      (parts.map fun p => (oneOfEvents events)∗ * p.language).prod * (oneOfEvents events)∗ := by
  have last : (endOnly.withStartEvents events).language = (oneOfEvents events)∗ := by
    rw [language_withStartEvents visible wellFormed_endOnly.nonempty fun i => not_leads_endOnly i 0,
      language_endOnly, mul_one]
  have each : parts.map (fun p => (p.withStartEvents events).language) =
      parts.map fun p => (oneOfEvents events)∗ * p.language :=
    List.map_congr_left fun p mem =>
      language_withStartEvents visible (wf p mem).nonempty (never p mem)
  simp only [attributeParts, List.map_append, List.map_map, List.prod_append, Function.comp_def,
    each, List.map_cons, List.map_nil, List.prod_singleton, last]

end Grammar

namespace AttributeUse.IsGrammar

variable {a : AttributeUse} {p : Grammar}

theorem grow (here : a.IsGrammar t p) (ext : t.Extends u) : a.IsGrammar u p := by
  obtain ⟨ref, value, found, known, eq⟩ := here
  exact ⟨ref, value, ext.find? found, known, eq⟩

theorem wellFormed (here : a.IsGrammar t p) : p.WellFormed := by
  obtain ⟨ref, value, _, _, rfl⟩ := here
  have one : (Grammar.single (.attribute ref value)).WellFormed := by
    rw [Grammar.single_eq_oneOf]
    exact Grammar.wellFormed_oneOf (by simp)
  split
  · exact one
  · exact one.withEscape

theorem never (here : a.IsGrammar t p) (i : Nat) : ¬ p.Leads i 0 := by
  obtain ⟨ref, value, _, _, rfl⟩ := here
  split
  · exact Grammar.not_leads_single _ i
  · rw [Grammar.leads_withEscape_iff]
    exact Grammar.not_leads_single _ i

theorem size (here : a.IsGrammar t p) : p.size = 2 := by
  obtain ⟨ref, value, _, _, rfl⟩ := here
  split
  · rfl
  · rw [Grammar.size_withEscape]
    rfl

theorem language (here : a.IsGrammar t p) : p.language = a.language t := by
  obtain ⟨ref, value, found, known, rfl⟩ := here
  have one : (Grammar.single (.attribute ref value)).language =
      oneOfEvents [.attribute ref value] := by
    rw [Grammar.single_eq_oneOf]
    exact Grammar.language_oneOf (by simp)
  have present : ({w | ∃ ref value, t.find? a.name = some ref ∧
      Datatype.ofBuiltIn? a.builtIn = some value ∧ w = [.attribute ref value]} : Language Event) =
        oneOfEvents [.attribute ref value] := by
    simp [found, known, oneOfEvents]
  rw [AttributeUse.language, present]
  split
  · exact one
  · have nonempty : 0 < (Grammar.single (.attribute ref value)).size := Nat.two_pos
    rw [Grammar.language_withEscape nonempty, one, Grammar.single_eq_oneOf, Grammar.restarts_oneOf]

end AttributeUse.IsGrammar

def AreGrammars (t : UriTable) : List AttributeUse → List Grammar → Prop :=
  List.Forall₂ fun a p => a.IsGrammar t p

/-- There is a row for every name and every listed namespace, and a datatype for every value. -/
structure NamesStand (t : UriTable) (given : Option Wildcard) (uses : List AttributeUse) : Prop where
  listed : ∀ wildcard ∈ given, wildcard.Entered t
  used : ∀ a ∈ uses, ∃ ref value, t.find? a.name = some ref ∧
    Datatype.ofBuiltIn? a.builtIn = some value

namespace AreGrammars

variable {uses : List AttributeUse} {parts : List Grammar} {given : Option Wildcard}
  {admitted : Option (List Event)}

theorem grow (all : AreGrammars t uses parts) (ext : t.Extends u) : AreGrammars u uses parts :=
  List.Forall₂.imp (fun _ _ here => AttributeUse.IsGrammar.grow here ext) all

theorem totalSize (all : AreGrammars t uses parts) :
    Grammar.totalSize parts = 2 * uses.length := by
  induction all with
  | nil => rfl
  | cons first _ ih =>
    rw [Grammar.totalSize_cons, first.size, ih, List.length_cons]
    omega

theorem wellFormed (all : AreGrammars t uses parts) : ∀ p ∈ parts, p.WellFormed := by
  intro p mem
  obtain ⟨a, _, here⟩ := exists_of_mem_forall₂ (List.Forall₂.flip all) mem
  exact AttributeUse.IsGrammar.wellFormed here

theorem never (all : AreGrammars t uses parts) : ∀ p ∈ parts, ∀ i, ¬ p.Leads i 0 := by
  intro p mem
  obtain ⟨a, _, here⟩ := exists_of_mem_forall₂ (List.Forall₂.flip all) mem
  exact AttributeUse.IsGrammar.never here

theorem map_language (all : AreGrammars t uses parts) (l : Language Event) :
    (parts.map fun p => l * p.language) = uses.map fun a => l * a.language t := by
  induction all with
  | nil => rfl
  | cons first _ ih => rw [List.map_cons, List.map_cons, first.language, ih]

theorem namesStand (all : AreGrammars t uses parts) (admits : Option.Rel t.Admits given admitted) :
    NamesStand t given uses := by
  constructor
  · rintro wildcard ⟨⟩
    cases admits with
    | some here => exact here.entered
  · intro a mem
    obtain ⟨p, _, ref, value, found, known, _⟩ := exists_of_mem_forall₂ all mem
    exact ⟨ref, value, found, known⟩

/-- Attributes in their order, what the wildcard admits around them, and then the content. -/
theorem language_complex (all : AreGrammars t uses parts)
    (admits : Option.Rel t.Admits given admitted) {c g : Grammar} (wf : c.WellFormed)
    (run : Grammar.complex parts admitted c = .ok g) :
    g.language = attributesLanguage t given uses * c.language := by
  have goOn := UriTable.plain_of_admits admits
  rw [Grammar.language_complex all.wellFormed wf goOn run, attributesLanguage]
  congr 1
  cases admits with
  | none =>
    have plain := all.map_language 1
    simp only [one_mul] at plain
    simp only [Grammar.attributeParts, admittedLanguage, kstar_zero, one_mul, mul_one, plain]
  | some here =>
    rw [Grammar.prod_attributeParts here.plain.1 all.wellFormed all.never, all.map_language,
      here.oneOfEvents_eq]
    rfl

end AreGrammars

end ExiSchema
