import ExiSchema.Proofs.Draft.Touring

/-!
The local elements of a compiled model. What was put off while a type was being compiled is declared
when all of the model has been entered, so that in the end every element that was met inside a type
stands among the local elements, with the grammar of its type, and the grammars start no others.
-/

set_option autoImplicit false

namespace ExiSchema

theorem ElementDecl.origin_of_named {decl : ElementDecl} {type : TypeDef} {name : QName}
    (typed : decl.type = some type) (named : type.name? = some name) : decl.origin = .named name := by
  rw [origin, typed, Option.elim_some, TypeDef.origin_of_named named]

theorem Event.named?_eq_startElement_iff {t : UriTable} {e : Event} {q : QName} :
    e.named? t = some (.startElement q) ↔ ∃ ref, e = .startElement ref ∧ t.resolve? ref = some q := by
  cases e <;> simp [named?]

namespace Grammar

variable {R : Event → Event → Prop} {P : Event → Prop}
  {gs gs' : Array Grammar}

theorem Alike.flip {g g' : Grammar} (alike : Alike R g g') : Alike (flip R) g' g := by
  refine List.Forall₂.flip (List.Forall₂.imp (fun r r' rules => ?_) alike)
  exact ⟨rules.id.symm, List.Forall₂.flip (rules.productions.imp fun p p' same =>
    ⟨same.event, same.target.symm⟩)⟩

theorem Has.alike (has : Has P gs) (alike : List.Forall₂ (Alike R) gs.toList gs'.toList) :
    Has (fun e' => ∃ e, P e ∧ R e e') gs' := by
  obtain ⟨g, mem, r, rule, p, inner, here⟩ := has
  obtain ⟨g', mem', rules⟩ := exists_of_mem_forall₂ alike (Array.mem_toList_iff.2 mem)
  obtain ⟨r', rule', productions⟩ := exists_of_mem_forall₂ rules (Array.mem_toList_iff.2 rule)
  obtain ⟨p', inner', same⟩ := exists_of_mem_forall₂ productions.productions inner
  exact ⟨g', Array.mem_toList_iff.1 mem', r', Array.mem_toList_iff.1 rule', p', inner', p.event,
    here, same.event⟩

theorem Has.mono {Q : Event → Prop} (has : Has P gs) (imp : ∀ e, P e → Q e) : Has Q gs := by
  obtain ⟨g, mem, r, rule, p, inner, here⟩ := has
  exact ⟨g, mem, r, rule, p, inner, imp _ here⟩

end Grammar

namespace CompiledSchema

/-- Some grammar starts an element of this name. -/
def Starts (c : CompiledSchema) (q : QName) : Prop :=
  Grammar.Has (fun e => e.named? c.uris = some (.startElement q)) c.grammars

end CompiledSchema

namespace Draft

variable {s : Schema} {options : Options} {d d' : Draft} {c : CompiledSchema} {q : QName}

/-- All that has been declared was put off before, and grammars start what they started. -/
structure OnlySettles (d d' : Draft) : Prop where
  types : d'.types = d.types
  starts : ∀ ref, d'.Starts ref ↔ d.Starts ref
  locals : ∀ ref, d'.HasLocal ref → d.Meets ref

/-- When a whole model has been entered, settling compiles nothing more. -/
theorem onlySettles_of_entered (off : options.skipUnsupported = false)
    (entered : addSchema s (start options) = .ok () d) (run : settlePending d = .ok () d') :
    d.OnlySettles d' := by
  have begun : settle d.pending { d with pending := [] } = .ok () d' := run
  have sound : Store.Sound { d with pending := [] }.store := (Ripe.entered entered).sound
  refine (yields_settle_registered (P := d.OnlySettles) d.pending sound
    (registered_of_entered off entered) ⟨rfl, fun _ => Iff.rfl, fun _ => .inl⟩
    (fun e mem type d₁ sound only => ?_)
    fun _ _ _ only => ⟨only.types, only.starts, only.locals⟩).ok_of_eq begun
  refine (yields_declareLocal_names e.name type sound).mono ?_ fun _ _ _ => trivial
  rintro id d₂ ⟨⟨types, _⟩, starts, locals, _⟩
  refine ⟨types.trans only.types, fun ref => (starts ref).trans (only.starts ref), fun ref here => ?_⟩
  rcases (locals ref).1 here with old | rfl
  · exact only.locals ref old
  · exact .inr ⟨e, mem, rfl⟩

/-- The local element of an element that was put off is there in the end. -/
theorem Serves.settled {decl : ElementDecl} (serves : d.Serves decl)
    (moves : Moves { d with pending := [] } d') (declared : ∀ e ∈ d.pending, d'.Declared e) :
    d'.Serves decl := by
  obtain ⟨ref, found, here⟩ := serves
  refine ⟨ref, moves.grows.uris.extends.find? found, .inl ?_⟩
  rcases here with ⟨l, mem, name, type⟩ | ⟨e, mem, rfl, typed⟩
  · exact ⟨l, moves.declared mem, name, fun shared => moves.typeId? (type shared)⟩
  · obtain ⟨name, pair, l, _, named, registered, mem, ref, type, _⟩ := declared e mem
    refine ⟨l, mem, ref, fun _ => ?_⟩
    rw [ElementDecl.origin_of_named typed named]
    exact Option.map_eq_some_iff.2 ⟨pair, registered, type.symm⟩

/-- The same elements have been met, and now all of them are declared. -/
theorem OnlySettles.meets_iff (only : d.OnlySettles d') (moves : Moves { d with pending := [] } d')
    (declared : ∀ e ∈ d.pending, d'.Declared e) (none : d'.pending = []) (ref : NameRef) :
    d'.Meets ref ↔ d.Meets ref := by
  constructor
  · rintro (here | ⟨e, mem, _⟩)
    · exact only.locals ref here
    · exact absurd (none ▸ mem) List.not_mem_nil
  · rintro (⟨l, mem, name⟩ | ⟨e, mem, rfl⟩)
    · exact .inl ⟨l, moves.declared mem, name⟩
    · obtain ⟨_, _, l, _, _, _, mem, name, _⟩ := declared e mem
      exact .inl ⟨l, mem, name⟩

/-- The draft has come to the end of the tour, and nothing is put off any more. -/
structure Toured (d : Draft) (s : Schema) : Prop where
  follows : d.Follows s.tour []
  pending : d.pending = []
  filed : d.Filed
  tracked : d.store.Tracked

theorem toured_of_entered (off : options.skipUnsupported = false)
    (entered : addSchema s (start options) = .ok () d) (run : settlePending d = .ok () d') :
    d'.Toured s := by
  have ripe : d.Ripe := .entered entered
  have follows := follows_of_entered off entered
  have only := onlySettles_of_entered off entered run
  have begun := moves_of_entered entered
  have moves := ripe.moves run
  have none := ripe.empties run (registered_of_entered off entered)
  -- nothing may be left out, so none of them is reported
  have declared (e : PendingElement) (mem : e ∈ d.pending) : d'.Declared e := by
    refine (ripe.declares_or_reports run e mem).resolve_right ?_
    rintro ⟨_, _, _, may⟩
    rw [begun.moves.options] at may
    cases off.symm.trans may
  have meets := only.meets_iff moves declared none
  refine ⟨⟨only.types ▸ follows.done, fun decl mem => (follows.served decl mem).settled moves declared,
    fun ref here => ?_, fun ref => ?_⟩, none, ?_, ?_⟩
  · obtain ⟨decl, mem, found⟩ := follows.named ref ((meets ref).1 here)
    exact ⟨decl, mem, moves.grows.uris.extends.find? found⟩
  · rw [only.starts, meets]
    exact follows.starts ref
  · exact moves.invariant (fun _ _ move => move.filed)
      ⟨ripe.filed.types, ripe.filed.anyType, ripe.filed.locals⟩
  · exact (begun.moves.grows.trans moves.grows).tracked Store.tracked_initial

namespace Compiles

variable (compiles : d.Compiles c)
include compiles

theorem starts_iff : c.Starts q ↔ ∃ ref, d.Starts ref ∧ d.uris.resolve? ref = some q := by
  constructor
  · intro starts
    have flipped := (List.Forall₂.imp (fun _ _ alike => alike.flip) compiles.grammars).flip
    obtain ⟨g, mem, r, rule, p, inner, e', here, renamed⟩ := Grammar.Has.alike starts flipped
    obtain ⟨n, named, named'⟩ := Event.Renamed.named renamed
    rw [compiles.uris, named'] at here
    obtain ⟨ref, event, resolves⟩ := Event.named?_eq_startElement_iff.1 (named.trans here)
    exact ⟨ref, ⟨g, mem, r, rule, p, inner, event⟩, resolves⟩
  · rintro ⟨ref, starts, resolves⟩
    refine (Grammar.Has.alike starts compiles.grammars).mono ?_
    rintro e' ⟨e, rfl, _, n, named, named'⟩
    rw [compiles.uris, named', ← named]
    exact Event.named?_eq_startElement_iff.2 ⟨ref, rfl, resolves⟩

theorem exists_local {l : LocalElement} (mem : l ∈ d.locals) (here : d.uris.resolve? l.name = some q) :
    ∃ e ∈ c.locals, e.name = q ∧ e.grammar = l.grammar := by
  obtain ⟨unsorted, each, sorted⟩ := compiles.locals
  obtain ⟨e, there, run⟩ := exists_of_mem_forall₂ each (Array.mem_toList_iff.2 mem)
  obtain ⟨name, _, grammar⟩ := NamedElement.ofOld_eq_ok here run
  exact ⟨e, sorted ▸ List.mem_mergeSort.2 there, name, grammar⟩

theorem exists_old (resolved : ∀ ref, d.HasLocal ref → ∃ q, d.uris.resolve? ref = some q)
    {e : NamedElement} (mem : e ∈ c.locals) :
    ∃ ref, d.HasLocal ref ∧ d.uris.resolve? ref = some e.name := by
  obtain ⟨unsorted, each, sorted⟩ := compiles.locals
  rw [sorted, List.mem_mergeSort] at mem
  obtain ⟨l, there, run⟩ := exists_of_mem_forall₂ (List.Forall₂.flip each) mem
  have here : d.HasLocal l.name := ⟨l, Array.mem_toList_iff.1 there, rfl⟩
  obtain ⟨q, resolves⟩ := resolved l.name here
  exact ⟨l.name, here, (NamedElement.ofOld_eq_ok resolves run).1 ▸ resolves⟩

/-- Grammars that were equal are equal in the compiled schema. -/
theorem grammar?_copy {id id' : GrammarId} {g : Grammar} (here : d.Holds id g) (copy : d.Holds id' g) :
    ∃ g', c.grammar? id = some g' ∧ c.grammar? id' = some g' := by
  obtain ⟨g₁, found, alike⟩ := compiles.grammar? here
  obtain ⟨g₂, found', alike'⟩ := compiles.grammar? copy
  refine ⟨g₁, found, ?_⟩
  rw [found', alike.unique alike' fun e e₁ e₂ first second =>
    Except.ok.inj (first.moved.symm.trans second.moved)]

theorem grammar?_anything {id : GrammarId} (here : d.Holds id .anything) :
    c.grammar? id = some .anything := by
  obtain ⟨g, found, alike⟩ := compiles.grammar? here
  -- no event of this grammar is over a row, and such events are moved to themselves
  have resp : Event.Respected fun e e' => e = e' ∧ e.uri? = none :=
    ⟨fun _ plain => ⟨rfl, plain⟩, fun e e' same => by rw [same.1]⟩
  rw [found, alike.unique (Grammar.alike_anything resp) fun e e₁ e₂ renamed same => ?_]
  obtain ⟨rfl, plain⟩ := same
  exact (Except.ok.inj ((Relocation.moved_of_plain _ plain).symm.trans renamed.moved)).symm

end Compiles

namespace Toured

variable (toured : d.Toured s)
include toured

theorem meets_iff {ref : NameRef} : d.Meets ref ↔ d.HasLocal ref := by
  refine or_iff_left ?_
  rintro ⟨e, mem, _⟩
  exact absurd (toured.pending ▸ mem) List.not_mem_nil

theorem resolved {ref : NameRef} (here : d.HasLocal ref) :
    ∃ decl ∈ s.tour.met, d.uris.resolve? ref = some decl.name := by
  obtain ⟨decl, mem, found⟩ := toured.follows.named ref (.inl here)
  exact ⟨decl, mem, UriTable.resolve?_of_find? found⟩

theorem starts_iff {ref : NameRef} : d.Starts ref ↔ d.HasLocal ref := by
  have starts := toured.follows.starts ref
  rwa [or_iff_left List.not_mem_nil, toured.meets_iff] at starts

theorem exists_old (compiles : d.Compiles c) {e : NamedElement} (mem : e ∈ c.locals) :
    ∃ ref, d.HasLocal ref ∧ d.uris.resolve? ref = some e.name :=
  compiles.exists_old (fun _ here => have ⟨_, _, found⟩ := toured.resolved here; ⟨_, found⟩) mem

theorem compiled_starts_iff (compiles : d.Compiles c) :
    c.Starts q ↔ ∃ e ∈ c.locals, e.name = q := by
  rw [compiles.starts_iff]
  constructor
  · rintro ⟨ref, starts, resolves⟩
    obtain ⟨l, mem, rfl⟩ := toured.starts_iff.1 starts
    obtain ⟨e, there, name, _⟩ := compiles.exists_local mem resolves
    exact ⟨e, there, name⟩
  · rintro ⟨e, mem, rfl⟩
    obtain ⟨ref, here, resolves⟩ := toured.exists_old compiles mem
    exact ⟨ref, toured.starts_iff.2 here, resolves⟩

theorem exists_met (compiles : d.Compiles c) {e : NamedElement} (mem : e ∈ c.locals) :
    ∃ decl ∈ s.tour.met, decl.name = e.name := by
  obtain ⟨ref, here, resolves⟩ := toured.exists_old compiles mem
  obtain ⟨decl, met, resolves'⟩ := toured.resolved here
  exact ⟨decl, met, Option.some.inj (resolves'.symm.trans resolves)⟩

/-- An element that was met has an entry with the grammar of its type. -/
theorem exists_entry (compiles : d.Compiles c) {decl : ElementDecl} (met : decl ∈ s.tour.met) :
    ∃ e ∈ c.locals, e.name = decl.name ∧
      (decl.type = none → c.grammar? e.grammar = some .anything) ∧
      ∀ type name, decl.type = some type → type.name? = some name →
        ∃ pair g, c.typeGrammars? name = some pair ∧ c.grammar? pair.grammar = some g ∧
          c.grammar? e.grammar = some g := by
  obtain ⟨ref, found, here⟩ := toured.follows.served decl met
  have none : ¬∃ e ∈ d.pending, e.name = ref ∧ decl.type = some e.type := by
    rintro ⟨e, mem, _⟩
    exact absurd (toured.pending ▸ mem) List.not_mem_nil
  obtain ⟨l, mem, rfl, typed⟩ := here.resolve_right none
  -- the entry's grammar is a copy of the grammar of the type
  obtain ⟨g, there, copy⟩ := toured.filed.locals l mem
  obtain ⟨e, entry, name, grammar⟩ := compiles.exists_local mem (UriTable.resolve?_of_find? found)
  refine ⟨e, entry, name, fun untyped => ?_, fun type name given named => ?_⟩
  · have origin : decl.origin = .anyType := by rw [ElementDecl.origin, untyped, Option.elim_none]
    rw [origin] at typed
    cases Option.some.inj ((toured.filed.anyType _ (typed rfl)).symm.trans there)
    exact grammar ▸ compiles.grammar?_anything copy
  · rw [ElementDecl.origin_of_named given named] at typed
    obtain ⟨pair, registered, same⟩ := Option.map_eq_some_iff.1 (typed rfl)
    obtain ⟨g', shared, own⟩ := compiles.grammar?_copy there copy
    refine ⟨pair, g', ?_, same ▸ shared, grammar ▸ own⟩
    rw [CompiledSchema.typeGrammars?, compiles.types, registered]

end Toured

/-- What finishing does to a draft, where it succeeds. -/
theorem exists_of_finish (run : finish d = .ok c d') :
    settlePending d = .ok () d' ∧ d'.canonical = .ok c := by
  simp only [finish, bind, EStateM.bind] at run
  cases settled : settlePending d with
  | error f e => simp only [settled, reduceCtorEq] at run
  | ok _ e =>
    simp only [settled, get, getThe, MonadStateOf.get, EStateM.get] at run
    by_cases empty : e.stack.isEmpty = true
    · simp only [empty, if_true, ofExcept] at run
      cases moved : e.canonical with
      | error f => simp only [moved, reduceCtorEq] at run
      | ok c' =>
        simp only [moved, EStateM.Result.ok.injEq] at run
        obtain ⟨rfl, rfl⟩ := run
        exact ⟨rfl, moved⟩
    · simp only [empty] at run
      cases run

end Draft

namespace Schema

variable {s : Schema} {o : Options} {r : Compilation}

/-- What a compilation that succeeds runs through. -/
theorem exists_finish_of_compile (run : s.compile o = .ok r) : ∃ d d',
    Draft.addSchema s (Draft.start o) = .ok () d ∧ Draft.finish d = .ok r.schema d' ∧
      r.skips = d'.skips := by
  unfold compile at run
  simp only [bind, EStateM.bind] at run
  cases entered : Draft.addSchema s (Draft.start o) with
  | error f d => simp only [entered, reduceCtorEq] at run
  | ok _ d =>
    simp only [entered] at run
    cases finished : Draft.finish d with
    | error f d' => simp only [finished, reduceCtorEq] at run
    | ok c d' =>
      simp only [finished, Except.ok.injEq] at run
      cases run
      exact ⟨d, d', rfl, finished, rfl⟩

theorem exists_of_compile (run : s.compile o = .ok r) : ∃ d d',
    Draft.addSchema s (Draft.start o) = .ok () d ∧ Draft.settlePending d = .ok () d' ∧
      d'.canonical = .ok r.schema := by
  obtain ⟨d, d', entered, finished, _⟩ := exists_finish_of_compile run
  exact ⟨d, d', entered, Draft.exists_of_finish finished⟩

/-- Where nothing may be left out, the local elements of a compiled model are complete. Their names are
those that the grammars start, and those of the elements that are met inside types; and each of these
elements has an entry with the grammar that the name of its type is registered with, or with that of
any content, also where the type was still being compiled when the element was met. -/
theorem compile_locals (off : o.skipUnsupported = false) (run : s.compile o = .ok r) :
    (∀ q, r.schema.Starts q ↔ ∃ e ∈ r.schema.locals, e.name = q) ∧
    (∀ e ∈ r.schema.locals, ∃ decl ∈ s.tour.met, decl.name = e.name) ∧
    (∀ decl ∈ s.tour.met, ∃ e ∈ r.schema.locals, e.name = decl.name ∧
      (decl.type = none → r.schema.grammar? e.grammar = some .anything) ∧
      ∀ type name, decl.type = some type → type.name? = some name →
        ∃ pair g, r.schema.typeGrammars? name = some pair ∧
          r.schema.grammar? pair.grammar = some g ∧ r.schema.grammar? e.grammar = some g) ∧
    r.schema.types.names = s.tour.done := by
  obtain ⟨d, d', entered, settled, canonical⟩ := exists_of_compile run
  have toured := Draft.toured_of_entered off entered settled
  have compiles := Draft.compiles_of_canonical toured.tracked canonical
  exact ⟨fun _ => toured.compiled_starts_iff compiles, fun _ => toured.exists_met compiles,
    fun _ => toured.exists_entry compiles, compiles.types ▸ toured.follows.done⟩

theorem exists_compile_of_isOk
    (ok : Draft.isOk ((Draft.addSchema s >>= fun _ => Draft.finish) (Draft.start o)) = true) :
    ∃ r, s.compile o = .ok r := by
  obtain ⟨c, d, run⟩ := Draft.exists_of_isOk ok
  exact ⟨⟨c, d.skips⟩, by simp only [compile, run]⟩

/-- The element has the grammar of the type that was being compiled when the element was met. -/
theorem compile_locals_recursive : ∃ r, Draft.recursive.compile {} = .ok r ∧
    (∀ q, r.schema.Starts q ↔ ∃ e ∈ r.schema.locals, e.name = q) ∧
    ∃ e ∈ r.schema.locals, e.name = ⟨"", "x"⟩ ∧ ∃ pair g,
      r.schema.typeGrammars? ⟨"", "t"⟩ = some pair ∧ r.schema.grammar? pair.grammar = some g ∧
      r.schema.grammar? e.grammar = some g := by
  obtain ⟨r, compiled⟩ := exists_compile_of_isOk (s := Draft.recursive) (o := {}) (by decide +kernel)
  obtain ⟨starts, _, entries, _⟩ := compile_locals rfl compiled
  have met : ⟨⟨"", "x"⟩, [], some (.simple (some ⟨"", "t"⟩) .atomic "string")⟩ ∈
      Draft.recursive.tour.met := List.mem_singleton_self _
  obtain ⟨e, mem, name, _, typed⟩ := entries _ met
  exact ⟨r, compiled, starts, e, mem, name, typed _ _ rfl rfl⟩

end Schema

end ExiSchema
