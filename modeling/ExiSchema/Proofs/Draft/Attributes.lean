import ExiSchema.Proofs.Draft.Chaining
import ExiSchema.Proofs.Draft.Lasting
import ExiSchema.Proofs.Model.Attributes

/-!
Attributes before content in a draft. The attributes may have been built long before, with any
operations in between. What a wildcard admits depends on the tables only, so that a type and its empty
form agree about it.
-/

set_option autoImplicit false

open Computability

namespace ExiSchema.Draft

variable {d d' e e' : Draft} {id content : GrammarId} {ids : List GrammarId} {g c : Grammar}
  {parts : List Grammar} {wildcard : Option Wildcard} {use : AttributeUse}

section

variable {α β : Type}

theorem onTables_pure (a : α) : onTables (pure a) = pure a := rfl

theorem onTables_bind (action : UriTable.Action α) (next : α → UriTable.Action β) :
    onTables (action >>= next) = onTables action >>= fun a => onTables (next a) := by
  funext d
  simp only [onTables, bind, EStateM.bind]
  cases action d.uris <;> rfl

theorem onTables_mapM (action : α → UriTable.Action β) (xs : List α) :
    onTables (xs.mapM action) = xs.mapM fun x => onTables (action x) := by
  induction xs with
  | nil => rfl
  | cons x xs ih => simp only [List.mapM_cons, onTables_bind, onTables_pure, ih]

end

/-- What a wildcard admits is decided by the tables. -/
theorem admittedEvents_eq (wildcard : Wildcard) :
    admittedEvents wildcard = onTables (UriTable.admission wildcard) := by
  cases wildcard with
  | any | except _ => rfl
  | among uris =>
    have rows : namespaceRows uris = onTables (UriTable.enterRows uris) := by
      unfold namespaceRows UriTable.enterRows
      split
      · rfl
      · exact (onTables_mapM UriTable.enterUri uris).symm
    rw [admittedEvents, UriTable.admission, onTables_bind, rows]
    rfl

theorem yields_admitEvents_inserts (here : d.Holds id g) (nonempty : 0 < g.size)
    (events : List Event) :
    Yields (admitEvents id events) d
      (fun i d' => d.Inserts 1 d' ∧ d'.Holds i (g.withStartEvents events))
      fun f _ => d.Scarce 1 0 f := by
  obtain ⟨r, _, started⟩ := startRule_eq (d := d) id nonempty
  refine yields_reads_bind here.grammar_eq_ok (yields_reads_bind started ?_)
  exact yields_insert_inserts _ d

theorem yields_admitEvents_each (here : d.HoldsAll ids parts) (nonempty : ∀ p ∈ parts, 0 < p.size)
    (events : List Event) :
    Yields (ids.mapM fun i => admitEvents i events) d
      (fun is d' => d.Inserts parts.length d' ∧
        d'.HoldsAll is (parts.map (·.withStartEvents events)))
      fun f _ => d.Scarce parts.length 0 f := by
  induction ids generalizing d parts with
  | nil =>
    cases here
    exact yields_pure ⟨⟨.refl d, rfl, Nat.le_refl _⟩, .nil⟩
  | cons i ids ih =>
    cases here with
    | @cons _ p _ parts first rest =>
      rw [List.mapM_cons]
      obtain ⟨one, others⟩ := List.forall_mem_cons.1 nonempty
      refine ((yields_admitEvents_inserts first one events).mono_fails ?_).bind ?_
      · intro f _ scarce
        exact scarce.mono (by simp) (Nat.le_refl 0)
      · rintro j d' ⟨inserts, there⟩
        have size := inserts.size
        refine ((ih (inserts.stays.holdsAll rest) others).mono_fails ?_).bind ?_
        · intro f _ scarce
          exact scarce.mono (by simp only [List.length_cons]; omega) (Nat.le_refl 0)
        · rintro js d'' ⟨more, all⟩
          refine yields_pure ⟨?_, .cons (more.stays j _ there) all⟩
          simpa only [List.length_cons, Nat.add_comm 1] using inserts.trans more

/-- The content alone, or behind the parts that stand before it. -/
theorem yields_before (before : d.HoldsAll ids parts) (here : d.Holds content c) :
    Yields (if ids.isEmpty then pure content else chain (ids ++ [content])) d
      (fun i d' => d'.uris = d.uris ∧ ∃ g,
        (if parts.isEmpty then .ok c else Grammar.sequence (parts ++ [c])) = .ok g ∧ d'.Holds i g)
      fun f _ => d.Scarce 1 (Grammar.totalSize parts) f := by
  cases before with
  | nil => exact yields_pure ⟨rfl, c, rfl, here⟩
  | @cons i p ids parts first rest =>
    have all : d.HoldsAll (i :: ids ++ [content]) (p :: parts ++ [c]) :=
      List.rel_append (.cons first rest) (.cons here .nil)
    have chained := yields_chain_inserts all
    rw [List.dropLast_concat] at chained
    refine chained.mono_ok ?_
    rintro j d' ⟨inserts, made⟩
    exact ⟨inserts.uris, made⟩

/-- Why attributes cannot be put before content: the wildcard is refused, or numbers run out, for the
rows of its namespaces or for grammars and their rules. -/
inductive Hinders (d : Draft) (wildcard : Option Wildcard) (n rules : Nat) (f : Fault) : Prop where
  | refused {w : Wildcard} (given : wildcard = some w) (mem : f ∈ w.faults)
  | rows {uris : List String} (given : wildcard = some (.among uris))
      (fault : f = .memoryAllocation) (full : Table.rowLimit < d.uris.size + uris.length)
  | scarce (scarce : d.Scarce n rules f)

theorem Hinders.mono {m n k l : Nat} {f : Fault} (hinders : d'.Hinders wildcard m k f)
    (uris : d'.uris = d.uris) (numbers : d'.grammars.size + m ≤ d.grammars.size + n) (rules : k ≤ l) :
    d.Hinders wildcard n l f := by
  cases hinders with
  | refused given mem => exact .refused given mem
  | rows given fault full => exact .rows given fault (uris ▸ full)
  | scarce scarce => exact .scarce (scarce.mono numbers rules)

theorem yields_admittedEvents (wildcard : Wildcard) (d : Draft) :
    Yields (admittedEvents wildcard) d
      (fun events d' => UriTable.admission wildcard d.uris = .ok events d'.uris ∧ d.Stays d' ∧
        d'.grammars.size = d.grammars.size)
      fun f _ => d.Hinders (some wildcard) 0 0 f := by
  rw [admittedEvents_eq]
  refine (yields_onTables (UriTable.yields_admission wildcard d.uris).with_run).mono ?_ ?_
  · rintro events d' ⟨frame, run, _⟩
    refine ⟨run, ?_, by rw [frame]⟩
    rw [frame]
    exact fun _ _ here => here
  · rintro f _ ⟨_, mem | ⟨uris, rfl, fault, full⟩⟩
    · exact .refused rfl mem
    · exact .rows rfl fault full

/-- With a wildcard, every attribute and one part more get its events. -/
theorem yields_attributeParts (uses : d.HoldsAll ids parts) (nonempty : ∀ p ∈ parts, 0 < p.size)
    (wildcard : Wildcard) :
    Yields (do
        let events ← admittedEvents wildcard
        let last ← emptyContent
        (ids ++ [last]).mapM fun id => admitEvents id events) d
      (fun is d' => ∃ events, UriTable.admission wildcard d.uris = .ok events d'.uris ∧
        d.Stays d' ∧ d'.grammars.size ≤ d.grammars.size + (parts.length + 2) ∧
        d'.HoldsAll is (Grammar.attributeParts parts (some events)))
      fun f _ => d.Hinders (some wildcard) (parts.length + 2) 0 f := by
  refine ((yields_admittedEvents wildcard d).mono_fails ?_).bind ?_
  · intro f _ hinders
    exact hinders.mono rfl (by omega) (Nat.le_refl 0)
  rintro events d₁ ⟨run, stays, size⟩
  refine ((yields_insert_inserts .endOnly d₁).mono_fails ?_).bind ?_
  · intro f _ scarce
    exact .scarce (scarce.mono (by omega) (Nat.le_refl 0))
  rintro last d₂ ⟨first, there⟩
  have one := first.size
  have segments : d₂.HoldsAll (ids ++ [last]) (parts ++ [.endOnly]) :=
    List.rel_append ((stays.trans first.stays).holdsAll uses) (.cons there .nil)
  have starts : ∀ p ∈ parts ++ [.endOnly], 0 < p.size := by
    simpa [or_imp, forall_and] using ⟨nonempty, Grammar.wellFormed_endOnly.nonempty⟩
  -- one more for the empty part, and one more for each copy with events
  have length : (parts ++ [Grammar.endOnly]).length = parts.length + 1 := by simp
  refine (yields_admitEvents_each segments starts events).mono ?_ ?_
  · rintro is d₃ ⟨more, all⟩
    have others := more.size
    refine ⟨events, ?_, (stays.trans first.stays).trans more.stays, by omega, all⟩
    rw [more.uris, first.uris, run]
  · intro f _ scarce
    exact .scarce (scarce.mono (by omega) (Nat.le_refl 0))

theorem totalSize_attributeParts (parts : List Grammar) (events : List Event) :
    Grammar.totalSize (Grammar.attributeParts parts (some events)) = Grammar.totalSize parts + 1 := by
  induction parts with
  | nil => rfl
  | cons p parts ih =>
    simp only [Grammar.attributeParts, List.cons_append, List.map_cons, Grammar.totalSize_cons,
      Grammar.size_withStartEvents] at ih ⊢
    omega

theorem yields_complexContent_complex (uses : d.HoldsAll ids parts)
    (nonempty : ∀ p ∈ parts, 0 < p.size) (here : d.Holds content c) (wildcard : Option Wildcard) :
    Yields (complexContent ids wildcard content) d
      (fun i d' => ∃ admitted g,
        (wildcard.mapM UriTable.admission) d.uris = .ok admitted d'.uris ∧
        Grammar.complex parts admitted c = .ok g ∧ d'.Holds i g)
      fun f _ => d.Hinders wildcard (parts.length + 3) (Grammar.totalSize parts + 1) f := by
  cases wildcard with
  | none =>
    refine (yields_before uses here).mono ?_ ?_
    · rintro i d' ⟨uris, g, made, there⟩
      exact ⟨none, g, by rw [uris]; rfl, made, there⟩
    · intro f _ scarce
      exact .scarce (scarce.mono (by omega) (by omega))
  | some wildcard =>
    have split : complexContent ids (some wildcard) content = (do
        let events ← admittedEvents wildcard
        let last ← emptyContent
        (ids ++ [last]).mapM fun id => admitEvents id events) >>= fun is =>
          if is.isEmpty then pure content else chain (is ++ [content]) := by
      simp only [complexContent, bind_assoc]
    rw [split]
    refine ((yields_attributeParts uses nonempty wildcard).mono_fails ?_).bind ?_
    · intro f _ hinders
      exact hinders.mono rfl (by omega) (Nat.zero_le _)
    · rintro is d' ⟨events, run, stays, size, all⟩
      refine (yields_before all (stays _ _ here)).mono ?_ ?_
      · rintro i d'' ⟨uris, g, made, there⟩
        refine ⟨some events, g, ?_, made, there⟩
        rw [uris, Option.mapM_some]
        simp only [Functor.map, EStateM.map, run]
      · intro f _ scarce
        rw [totalSize_attributeParts] at scarce
        exact .scarce (scarce.mono (by omega) (Nat.le_refl _))

theorem yields_complexEmpty_complex (uses : d.HoldsAll ids parts) (nonempty : ∀ p ∈ parts, 0 < p.size)
    (wildcard : Option Wildcard) :
    Yields (complexEmpty ids wildcard) d
      (fun i d' => ∃ admitted g, (wildcard.mapM UriTable.admission) d.uris = .ok admitted d'.uris ∧
        Grammar.complex parts admitted .endOnly = .ok g ∧ d'.Holds i g)
      fun f _ => d.Hinders wildcard (parts.length + 4) (Grammar.totalSize parts + 1) f := by
  refine ((yields_insert_inserts .endOnly d).mono_fails ?_).bind ?_
  · intro f _ scarce
    exact .scarce (scarce.mono (by omega) (Nat.zero_le _))
  · rintro last d₁ ⟨first, there⟩
    have one := first.size
    refine (yields_complexContent_complex (first.stays.holdsAll uses) nonempty there wildcard).mono ?_ ?_
    · rintro i d' ⟨admitted, g, run, made, known⟩
      exact ⟨admitted, g, first.uris ▸ run, made, known⟩
    · intro f _ hinders
      exact hinders.mono first.uris (by omega) (Nat.le_refl _)

/-- The number was once given to the attribute, and all that was there has lasted since. -/
def Built (d : Draft) (use : AttributeUse) (id : GrammarId) : Prop :=
  ∃ e e', attributeUse use.required use.name use.builtIn e = .ok id e' ∧ e'.Persists d

theorem yields_attributeUse (use : AttributeUse) (d : Draft) :
    Yields (attributeUse use.required use.name use.builtIn) d
      (fun i d' => ∃ p, d'.Holds i p ∧ use.IsGrammar d'.uris p) fun _ _ => True := by
  unfold attributeUse
  cases known : Datatype.ofBuiltIn? use.builtIn with
  | none => simp only [Yields, datatype, known, bind, EStateM.bind]
  | some value =>
    have reads : datatype use.builtIn d = .ok value d := by rw [datatype, known]
    refine yields_reads_bind reads ?_
    refine (yields_onTables (UriTable.yields_enterName use.name d.uris)).bind_ok ?_
    rintro ref d₁ ⟨_, _, found, _⟩
    refine (yields_insert_inserts _ d₁).mono ?_ fun _ _ _ => trivial
    rintro i d₂ ⟨inserts, there⟩
    exact ⟨_, there, ref, value, inserts.uris ▸ found, known, rfl⟩

theorem Persists.holds (persists : d.Persists d') (here : d.Holds id g) : d'.Holds id g := by
  obtain ⟨more, eq⟩ := persists.grammars
  have lt : id < d.grammars.toList.length := (Array.getElem?_eq_some_iff.1 here).1
  rw [Holds, ← Array.getElem?_toList, ← eq, List.getElem?_append_left lt, Array.getElem?_toList]
  exact here

theorem Built.exists_grammar (built : d.Built use id) :
    ∃ p, d.Holds id p ∧ use.IsGrammar d.uris p := by
  obtain ⟨e, e', run, persists⟩ := built
  obtain ⟨p, there, is⟩ := (yields_attributeUse use e).ok_of_eq run
  exact ⟨p, persists.holds there, is.grow persists.uris⟩

theorem exists_grammars {uses : List AttributeUse} (built : List.Forall₂ d.Built uses ids) :
    ∃ parts, d.HoldsAll ids parts ∧ AreGrammars d.uris uses parts := by
  induction built with
  | nil => exact ⟨[], .nil, .nil⟩
  | cons first _ ih =>
    obtain ⟨p, here, is⟩ := first.exists_grammar
    obtain ⟨parts, all, are⟩ := ih
    exact ⟨p :: parts, .cons here all, .cons is are⟩

/-- The number of an attribute stays its number, whatever operations follow. -/
theorem Reachable.built (reachable : d.Reachable)
    (given : Yields (attributeUse use.required use.name use.builtIn) d (fun i _ => i = id)
      fun _ _ => False) (ops : List Operation) :
    (Operation.afterAll (.attributeUse use.required use.name use.builtIn :: ops) d).Built use id := by
  obtain ⟨_, d', run, rfl⟩ := exists_of_yields given
  have after : (Operation.attributeUse use.required use.name use.builtIn).after d = d' := by
    simp only [Operation.after, Operation.run, bind, EStateM.bind, run]
    rfl
  refine ⟨d, d', run, ?_⟩
  rw [← after]
  exact (reachable.after _).persists ops

/-- An attribute that has to be there, and one that may be missing. -/
def twoUses : List AttributeUse := [⟨⟨"", "p"⟩, true, "string"⟩, ⟨⟨"", "q"⟩, false, "int"⟩]

/-- A draft with the two attributes, and an element for the content. -/
def attributed : Draft :=
  Operation.afterAll [.attributeUse true ⟨"", "p"⟩ "string", .attributeUse false ⟨"", "q"⟩ "int",
    .elementTerm ⟨"", "a"⟩] (start {})

theorem built_attributed : List.Forall₂ attributed.Built twoUses [0, 1] := by
  have first : attributed.Built ⟨⟨"", "p"⟩, true, "string"⟩ 0 :=
    (Reachable.start {}).built (by decide +kernel) _
  have second : attributed.Built ⟨⟨"", "q"⟩, false, "int"⟩ 1 :=
    (Reachable.after (.start {}) (.attributeUse true ⟨"", "p"⟩ "string")).built (by decide +kernel) _
  exact .cons first (.cons second .nil)

theorem holds_attributed : attributed.Holds 2 (.single (.startElement ⟨0, 2⟩)) := by
  unfold Holds
  decide +kernel

/-- Attributes stand before content in the order in which they are given. Each may be missing if it is
not required, and what the wildcard admits may come as often as wanted before each of them and before
the content. Of any attribute grammars at all, the type accepts the words of its empty form followed by
words of the content, from the same tables or in the course of the same operations. Either fails only
for the wildcard or where numbers run out. -/
theorem language_of_complexContent (here : d.Holds content c) (wf : c.WellFormed)
    (wildcard : Option Wildcard) :
    (∀ uses ids, List.Forall₂ d.Built uses ids →
      Yields (complexContent ids wildcard content) d
        (fun i d' => ∃ g, d'.Holds i g ∧ NamesStand d'.uris wildcard uses ∧
          g.language = attributesLanguage d'.uris wildcard uses * c.language)
        fun f _ => d.Hinders wildcard (uses.length + 3) (2 * uses.length + 1) f) ∧
      ∀ ids parts, d.HoldsAll ids parts → (∀ p ∈ parts, p.WellFormed) →
        ∀ e js, e.HoldsAll js parts →
          Yields (complexContent ids wildcard content) d
            (fun i d' => ∃ g, d'.Holds i g ∧
              Yields (complexEmpty js wildcard) e
                (fun j e' => ∃ h, e'.Holds j h ∧
                  (e.uris = d.uris ∨ (∃ t, d'.uris.Extends t ∧ e'.uris.Extends t) →
                    g.language = h.language * c.language))
                fun f _ => e.Hinders wildcard (parts.length + 4) (Grammar.totalSize parts + 1) f)
            fun f _ => d.Hinders wildcard (parts.length + 3) (Grammar.totalSize parts + 1) f := by
  constructor
  · intro uses ids built
    obtain ⟨parts, all, are⟩ := exists_grammars built
    have nonempty : ∀ p ∈ parts, 0 < p.size := fun p mem => (are.wellFormed p mem).nonempty
    have length : parts.length = uses.length := (List.Forall₂.length_eq are).symm
    have spec := yields_complexContent_complex all nonempty here wildcard
    rw [are.totalSize, length] at spec
    refine spec.mono_ok ?_
    rintro i d' ⟨admitted, g, run, made, there⟩
    obtain ⟨ext, admits⟩ := UriTable.admits_of_run run
    -- the attributes were built over tables that have grown since
    have later := are.grow ext
    exact ⟨g, there, later.namesStand admits, later.language_complex admits wf made⟩
  · intro ids parts all stand e js others
    have nonempty : ∀ p ∈ parts, 0 < p.size := fun p mem => (stand p mem).nonempty
    refine (yields_complexContent_complex all nonempty here wildcard).mono_ok ?_
    rintro i d' ⟨admitted, g, run, made, there⟩
    refine ⟨g, there, ?_⟩
    refine (yields_complexEmpty_complex others nonempty wildcard).mono_ok ?_
    rintro j e' ⟨admitted', h, run', made', there'⟩
    refine ⟨h, there', fun akin => ?_⟩
    obtain rfl := UriTable.admitted_unique run run' akin
    have goOn := UriTable.plain_of_admits (UriTable.admits_of_run run).2
    rw [Grammar.language_complex stand wf goOn made,
      Grammar.language_complex stand Grammar.wellFormed_endOnly goOn made', Grammar.language_endOnly,
      mul_one]

theorem language_of_complexContent_attributed :
    List.Forall₂ attributed.Built twoUses [0, 1] ∧
      attributed.Holds 2 (.single (.startElement ⟨0, 2⟩)) ∧
      (Grammar.single (.startElement ⟨0, 2⟩)).WellFormed ∧
      (∃ i d', complexContent [0, 1] (some (.among ["urn:b"])) 2 attributed = .ok i d' ∧
        ∃ g, d'.Holds i g ∧ NamesStand d'.uris (some (.among ["urn:b"])) twoUses ∧
          g.language = attributesLanguage d'.uris (some (.among ["urn:b"])) twoUses *
            (Grammar.single (.startElement ⟨0, 2⟩)).language) ∧
      ∃ parts, attributed.HoldsAll [0, 1] parts ∧ (∀ p ∈ parts, p.WellFormed) ∧
        ∃ i d', complexContent [0, 1] (some (.among ["urn:b"])) 2 attributed = .ok i d' ∧
          ∃ g, d'.Holds i g ∧
            ∃ j e', complexEmpty [0, 1] (some (.among ["urn:b"])) attributed = .ok j e' ∧
              ∃ h, e'.Holds j h ∧
                g.language = h.language * (Grammar.single (.startElement ⟨0, 2⟩)).language := by
  have wf : (Grammar.single (.startElement ⟨0, 2⟩)).WellFormed := by
    rw [Grammar.single_eq_oneOf]
    exact Grammar.wellFormed_oneOf (by simp)
  obtain ⟨exact_, whole⟩ := language_of_complexContent holds_attributed wf (some (.among ["urn:b"]))
  obtain ⟨parts, all, are⟩ := exists_grammars built_attributed
  refine ⟨built_attributed, holds_attributed, wf, ?_, parts, all, are.wellFormed, ?_⟩
  · exact exists_of_yields_isOk (exact_ twoUses [0, 1] built_attributed) (by decide +kernel)
  · obtain ⟨i, d', run, g, there, empty⟩ := exists_of_yields_isOk
      (whole [0, 1] parts all are.wellFormed attributed [0, 1] all) (by decide +kernel)
    obtain ⟨j, e', run', h, there', language⟩ := exists_of_yields_isOk empty (by decide +kernel)
    exact ⟨i, d', run, g, there, j, e', run', h, there', language (.inl rfl)⟩

end ExiSchema.Draft
