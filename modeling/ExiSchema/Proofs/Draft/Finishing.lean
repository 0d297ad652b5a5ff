import ExiSchema.CommandLine
import ExiSchema.Proofs.Draft.Locals
import ExiSchema.Proofs.Sorted.Increasing

/-!
What a finished schema can be relied on for, whatever operations led to it. Its tables are without
doubles and in order, and every number of a grammar that it gives away is that of one of its grammars.
-/

set_option autoImplicit false

namespace ExiSchema

namespace TypeRegistry

variable {r : TypeRegistry} {name : QName} {grammars : GrammarPair} {e : QName × GrammarPair}

theorem mem_entries_insert (mem : e ∈ (r.insert name grammars).entries) :
    e ∈ r.entries ∨ e = (name, grammars) := by
  unfold insert at mem
  split at mem
  · obtain ⟨old, inside, rfl⟩ := List.mem_map.1 mem
    split
    · exact .inr rfl
    · exact .inl inside
  · simpa using mem

theorem mem_entries_of_find? (found : r.find? name = some grammars) :
    (name, grammars) ∈ r.entries := by
  obtain ⟨e, here, rfl⟩ := Option.map_eq_some_iff.1 found
  have same : e.1 = name := by simpa using List.find?_some here
  exact same ▸ List.mem_of_find?_eq_some here

end TypeRegistry

/-- The texts of an entry are those of its rows. -/
theorem NamedElement.resolve?_of_ofOld {sorted : CanonicalTables} {old : NameRef} {id : GrammarId}
    {e : NamedElement} (run : ofOld sorted old id = .ok e) :
    sorted.uris.resolve? e.ref = some e.name ∧ e.grammar = id := by
  obtain ⟨ref, _, run⟩ := except_bind_eq_ok.1 run
  split at run
  · cases run
  · cases run
  · next uri localName label label' =>
    cases run
    exact ⟨UriTable.resolve?_eq_some_iff.2 ⟨uri, localName, label, label', rfl⟩, rfl⟩

namespace CompiledSchema

variable {c : CompiledSchema} {id : GrammarId}

theorem forall_of_foldl_insert {P : GrammarId → Prop} {entries : List NamedElement}
    {index : Std.HashMap NameRef GrammarId} (new : ∀ e ∈ entries, P e.grammar)
    (old : ∀ (ref : NameRef) (id : GrammarId), index[ref]? = some id → P id) :
    ∀ (ref : NameRef) (id : GrammarId),
      (entries.foldl (fun index e => index.insert e.ref e.grammar) index)[ref]? = some id → P id := by
  induction entries generalizing index with
  | nil => exact old
  | cons e entries ih =>
    refine ih (fun e' mem => new e' (List.mem_cons_of_mem e mem)) fun ref id here => ?_
    rw [Std.HashMap.getElem?_insert] at here
    split at here
    · cases here
      exact new e List.mem_cons_self
    · exact old ref id here

/-- Every number of a grammar leads to a grammar, and every element stands under the name of its
rows. -/
structure Resolved (c : CompiledSchema) : Prop where
  types : ∀ e ∈ c.types.entries, e.2.grammar < c.grammars.size ∧ e.2.empty < c.grammars.size
  globals : ∀ e ∈ c.globals.entries, e.grammar < c.grammars.size
  locals : ∀ e ∈ c.locals, e.grammar < c.grammars.size
  byRows : ∀ ref id, c.elementByRows? ref = some id → id < c.grammars.size
  globalNames : ∀ e ∈ c.globals.entries, c.resolve? e.ref = some e.name
  localNames : ∀ e ∈ c.locals, c.resolve? e.ref = some e.name

theorem grammarListing_ne_dangling {heading : String} {other : GrammarId}
    (lt : id < c.grammars.size) : c.grammarListing heading id ≠ .error (.danglingGrammar other) := by
  rw [grammarListing, grammar?, Array.getElem?_eq_getElem lt]
  simp

theorem Resolved.section_lt (resolved : c.Resolved) {s : String × GrammarId} (mem : s ∈ c.sections) :
    s.2 < c.grammars.size := by
  simp only [sections, List.mem_append, List.mem_flatMap, List.mem_map, List.mem_cons,
    List.not_mem_nil, or_false] at mem
  rcases mem with (⟨e, inside, rfl | rfl⟩ | ⟨e, inside, rfl⟩) | ⟨e, inside, rfl⟩
  · exact (resolved.types e inside).1
  · exact (resolved.types e inside).2
  · exact resolved.globals e (Array.mem_toList_iff.1 inside)
  · exact resolved.locals e inside

theorem Resolved.fullListing_ne_dangling (resolved : c.Resolved) :
    c.fullListing ≠ .error (.danglingGrammar id) := by
  intro run
  rcases except_bind_eq_error run with bad | ⟨_, _, done⟩
  · obtain ⟨s, mem, bad⟩ := except_mapM_eq_error bad
    exact grammarListing_ne_dangling (resolved.section_lt mem) bad
  · cases done

theorem Resolved.typeListing_ne_dangling (resolved : c.Resolved) (text : String) :
    c.typeListing text ≠ .error (.danglingGrammar id) := by
  unfold typeListing
  split
  · simp
  split
  · simp
  · next pair found =>
    have mem := TypeRegistry.mem_entries_of_find? found
    exact grammarListing_ne_dangling (resolved.types _ mem).1

end CompiledSchema

namespace Draft

variable {d d' : Draft} {c : CompiledSchema}

/-- What is registered is known. -/
structure Backed (d : Draft) : Prop where
  types : ∀ e ∈ d.types.entries, d.KnowsPair e.2
  globals : ∀ e ∈ d.globals, d.Knows e.grammar
  locals : ∀ e ∈ d.locals, d.Knows e.grammar

theorem backed_start (options : Options) : (start options).Backed := by
  constructor <;> simp [start]

theorem Backed.declareType {name : QName} {pair : GrammarPair} (backed : d.Backed)
    (knows : d.KnowsPair pair) : Backed { d with types := d.types.insert name pair } := by
  refine ⟨fun e mem => ?_, backed.globals, backed.locals⟩
  rcases TypeRegistry.mem_entries_insert mem with old | rfl
  · exact backed.types e old
  · exact knows

theorem Move.backed (move : d.Move d') (backed : d.Backed) : d'.Backed := by
  have grows := move.grows
  cases move with
  | store _ =>
    exact ⟨fun e mem => (backed.types e mem).grow grows, fun e mem => (backed.globals e mem).grow grows,
      fun e mem => (backed.locals e mem).grow grows⟩
  | declareType _ known => exact backed.declareType known
  | declareGlobal known =>
    refine ⟨backed.types, fun e mem => ?_, backed.locals⟩
    rcases Array.mem_push.1 mem with old | rfl
    · exact backed.globals e old
    · exact known
  | declareLocal _ _ copy =>
    refine ⟨backed.types, backed.globals, fun e mem => ?_⟩
    rcases Array.mem_push.1 mem with old | rfl
    · exact backed.locals e old
    · exact ⟨_, copy⟩
  | _ => exact ⟨backed.types, backed.globals, backed.locals⟩

theorem Compiles.lt_of_knows (compiles : d.Compiles c) {id : GrammarId} (knows : d.Knows id) :
    id < c.grammars.size := by
  obtain ⟨g, here⟩ := knows
  have size : c.grammars.size = d.grammars.size := compiles.grammars.length_eq.symm
  exact size ▸ here.lt

theorem Compiles.entry_resolved {α : Type} {name : α → NameRef} {grammar : α → GrammarId}
    {xs : List α} {entries : List NamedElement} (compiles : d.Compiles c)
    (made : ∃ unsorted, List.Forall₂ (fun x e =>
      NamedElement.ofOld d.uris.sorted (name x) (grammar x) = .ok e) xs unsorted ∧
      entries = unsorted.mergeSort NamedElement.le)
    (knows : ∀ x ∈ xs, d.Knows (grammar x)) {e : NamedElement} (mem : e ∈ entries) :
    e.grammar < c.grammars.size ∧ c.resolve? e.ref = some e.name := by
  obtain ⟨unsorted, each, rfl⟩ := made
  obtain ⟨x, inside, run⟩ :=
    exists_of_mem_forall₂ (List.Forall₂.flip each) (List.mem_mergeSort.1 mem)
  obtain ⟨resolves, same⟩ := NamedElement.resolve?_of_ofOld run
  rw [CompiledSchema.resolve?, compiles.uris, same]
  exact ⟨compiles.lt_of_knows (knows x inside), resolves⟩

/-- What is known in the draft is there in the compiled schema, and entries have the rows of their
names. -/
theorem Compiles.resolved (compiles : d.Compiles c) (backed : d.Backed)
    (byRows : c.byRows = CompiledSchema.indexByRows c.globals.entries.toList) : c.Resolved := by
  have globals (e : NamedElement) (mem : e ∈ c.globals.entries) :=
    compiles.entry_resolved compiles.globals
      (fun x inside => backed.globals x (Array.mem_toList_iff.1 inside)) (Array.mem_toList_iff.2 mem)
  have locals (e : NamedElement) (mem : e ∈ c.locals) :=
    compiles.entry_resolved compiles.locals
      (fun x inside => backed.locals x (Array.mem_toList_iff.1 inside)) mem
  refine ⟨fun e mem => ?_, fun e mem => (globals e mem).1, fun e mem => (locals e mem).1,
    fun ref id found => ?_, fun e mem => (globals e mem).2, fun e mem => (locals e mem).2⟩
  · have pair := backed.types e (compiles.types ▸ mem)
    exact ⟨compiles.lt_of_knows pair.1, compiles.lt_of_knows pair.2⟩
  · rw [CompiledSchema.elementByRows?, byRows] at found
    exact CompiledSchema.forall_of_foldl_insert (P := (· < c.grammars.size))
      (fun e mem => (globals e (Array.mem_toList_iff.1 mem)).1) (by simp) ref id found

theorem byRows_of_canonical (run : d.canonical = .ok c) :
    c.byRows = CompiledSchema.indexByRows c.globals.entries.toList := by
  obtain ⟨grammars, _, rest⟩ := except_bind_eq_ok.1 run
  obtain ⟨globals, _, rest⟩ := except_bind_eq_ok.1 rest
  obtain ⟨locals, _, done⟩ := except_bind_eq_ok.1 rest
  cases done
  rfl

namespace Ripe

variable (ripe : d.Ripe)
include ripe

theorem grows : Store.initial.Grows d.store := by
  cases ripe with
  | reached reachable => exact reachable.grows.1
  | entered run => exact (moves_of_entered run).moves.grows

theorem backed : d.Backed :=
  ripe.kept backed_start (fun _ _ move => move.backed) fun _ _ _ known backed =>
    backed.declareType known

theorem moves_of_settled (settled : settlePending d = .ok () d') (canonical : d'.canonical = .ok c) :
    Moves { d with pending := [] } d' ∧ d'.Compiles c := by
  have moves := ripe.moves settled
  have tracked := (ripe.grows.trans moves.grows).tracked Store.tracked_initial
  exact ⟨moves, compiles_of_canonical tracked canonical⟩

theorem resolved_of_settled (settled : settlePending d = .ok () d')
    (canonical : d'.canonical = .ok c) : c.Resolved := by
  obtain ⟨moves, compiles⟩ := ripe.moves_of_settled settled canonical
  have backed : d'.Backed := moves.invariant (fun _ _ move => move.backed)
    ⟨ripe.backed.types, ripe.backed.globals, ripe.backed.locals⟩
  exact compiles.resolved backed (byRows_of_canonical canonical)

/-- The tables of a draft that operations lead to have no doubles and begin as they began, and so do
those of the schema that is made of it, where the rows behind the reserved ones are in strictly
increasing order. -/
theorem tables :
    d.uris.Proper ∧
      ∀ c d', finish d = .ok c d' → c.uris.Proper ∧ c.uris.Increasing := by
  have regular := UriTable.regular_initial
  refine ⟨(ripe.grows.uris.unique regular.unique).proper ripe.grows.uris.extends, fun c d' run => ?_⟩
  obtain ⟨settled, canonical⟩ := exists_of_finish run
  obtain ⟨moves, compiles⟩ := ripe.moves_of_settled settled canonical
  have grows : UriTable.initial.Grows d'.uris := (ripe.grows.trans moves.grows).uris
  have unique := grows.unique regular.unique
  rw [compiles.uris]
  exact ⟨unique.sorted.proper grows.extends.sorted, unique.increasing_sorted⟩

end Ripe

/-- A draft can be finished if nothing waits when it is settled and its elements have names. -/
theorem Ripe.exists_finish_of_settled (ripe : d.Ripe) (settled : settlePending d = .ok () d')
    (globals : ∀ e ∈ d'.globals, (d'.uris.resolve? e.name).isSome = true)
    (locals : ∀ e ∈ d'.locals, (d'.uris.resolve? e.name).isSome = true) (empty : d'.stack = []) :
    ∃ c, finish d = .ok c d' := by
  have tracked := (ripe.grows.trans (ripe.moves settled).grows).tracked Store.tracked_initial
  obtain ⟨c, canonical⟩ := canonical_eq_ok tracked
    (fun e mem => Option.isSome_iff_exists.1 (globals e mem))
    fun e mem => Option.isSome_iff_exists.1 (locals e mem)
  refine ⟨c, ?_⟩
  rw [finish_of_settled settled empty]
  simp only [ofExcept, canonical]

/-- A draft whose elements have names can be finished if nothing waits and nothing was put off. -/
theorem exists_finish (reachable : d.Reachable)
    (globals : ∀ e ∈ d.globals, (d.uris.resolve? e.name).isSome = true)
    (locals : ∀ e ∈ d.locals, (d.uris.resolve? e.name).isSome = true)
    (settled : d.pending.isEmpty = true) (empty : d.stack = []) : ∃ c, finish d = .ok c d :=
  (Ripe.reached reachable).exists_finish_of_settled (settlePending_eq (List.isEmpty_iff.1 settled))
    globals locals empty

/-- A draft with all kinds of registrations. Its names do not stand in canonical order. -/
def registered : Draft :=
  (Operation.declareLocal ⟨4, 0⟩ 0).after ((Operation.declareGlobal ⟨"urn:a", "y"⟩ 0).after
    ((Operation.declareType ⟨"", "t"⟩ ⟨0, 0⟩).after
      ((Operation.elementTerm ⟨"urn:b", "x"⟩).after (start {}))))

theorem reachable_registered : registered.Reachable :=
  .after (.after (.after (.after (.start {}) _) _) _) _

theorem exists_finish_registered : ∃ c, finish registered = .ok c registered :=
  exists_finish reachable_registered (by decide +kernel) (by decide +kernel) (by decide +kernel)
    (by decide +kernel)

theorem registered_tables : ∃ c, finish registered = .ok c registered ∧
    registered.uris.texts.drop UriTable.reservedUris = ["urn:b", "urn:a"] ∧
    registered.uris.Proper ∧ c.uris.Proper ∧ c.uris.Increasing := by
  obtain ⟨c, run⟩ := exists_finish_registered
  obtain ⟨proper, finished⟩ := Ripe.tables (.reached reachable_registered)
  exact ⟨c, run, by decide +kernel, proper, finished c registered run⟩

end Draft

theorem Schema.resolved_of_compile {s : Schema} {o : Options} {r : Compilation}
    (run : s.compile o = .ok r) : r.schema.Resolved := by
  obtain ⟨d, d', entered, settled, canonical⟩ := exists_of_compile run
  exact (Draft.Ripe.entered entered).resolved_of_settled settled canonical

theorem CommandLine.listing_ne_dangling (r : Request) (model : ByteArray) (id : GrammarId) :
    listing r model ≠ .error (.report (.danglingGrammar id)) := by
  intro run
  simp only [listing, bind, Except.bind] at run
  split at run
  · split at run
    · next compilation made =>
      obtain ⟨s, _, compiled⟩ := except_bind_eq_ok.1 made
      have resolved := Schema.resolved_of_compile compiled
      split at run
      · cases run
      · next fault failed =>
        cases run
        split at failed
        · exact resolved.fullListing_ne_dangling failed
        · exact resolved.typeListing_ne_dangling _ failed
        · cases failed
    · cases run
  · cases run

/-- A finished schema has no dangling numbers, whatever operations led to it; so no listing ever ends
with one. -/
theorem Draft.finish_resolved :
    (∀ d c d', Ripe d → finish d = .ok c d' → c.Resolved) ∧
      ∀ request model id,
        CommandLine.listing request model ≠ .error (.report (.danglingGrammar id)) := by
  refine ⟨fun d c d' ripe run => ?_, CommandLine.listing_ne_dangling⟩
  obtain ⟨settled, canonical⟩ := exists_of_finish run
  exact ripe.resolved_of_settled settled canonical

theorem Draft.registered_finish_resolved : ∃ c, finish registered = .ok c registered ∧
    registered.types.entries = [(⟨"", "t"⟩, ⟨0, 0⟩)] ∧ registered.globals.toList = [⟨⟨5, 0⟩, 0⟩] ∧
    registered.locals.toList = [⟨⟨4, 0⟩, 0, 1⟩] ∧ c.Resolved := by
  obtain ⟨c, run⟩ := exists_finish_registered
  exact ⟨c, run, by decide +kernel, by decide +kernel, by decide +kernel,
    finish_resolved.1 registered c registered (.reached reachable_registered) run⟩

end ExiSchema
