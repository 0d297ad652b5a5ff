import ExiSchema.Proofs.Draft.Declaring
import ExiSchema.Proofs.Draft.Finishing
import ExiSchema.Proofs.Sorted.Packing

/-!
Finding the global elements of a finished schema. Those that were registered are all there, each
under its name and under its rows, and nothing else is found; where no name was registered twice, both
ways lead to the same grammar.
-/

set_option autoImplicit false

namespace ExiSchema

theorem NamedElement.lt_of_le_of_ne {a b : NamedElement} (le : a.le b = true) (ne : a.name ≠ b.name) :
    compareName b.uri b.localName a = .lt := by
  rw [le_iff, Ordering.isLE_iff_eq_lt_or_eq_eq] at le
  rw [compareName_eq]
  exact le.resolve_right fun same => ne (name_eq_of_compareCodes same)

namespace CompiledSchema

section

variable {κ : Type} [BEq κ] [Hashable κ] [LawfulBEq κ] [LawfulHashable κ]

/-- Of entries that are put into a map one by one, the last one of a key counts. -/
theorem getElem?_foldl_insert (key : NamedElement → κ) (entries : List NamedElement)
    (index : Std.HashMap κ GrammarId) (k : κ) :
    (entries.foldl (fun index e => index.insert (key e) e.grammar) index)[k]? =
      ((entries.reverse.find? fun e => key e == k).map NamedElement.grammar).or index[k]? := by
  induction entries generalizing index with
  | nil => rfl
  | cons e entries ih =>
    rw [List.foldl_cons, ih, List.reverse_cons, List.find?_append, Option.map_or, Option.or_assoc,
      Std.HashMap.getElem?_insert, List.find?_singleton]
    congr 1
    split <;> rfl

end

/-- The grammars of entries by their rows, with both rows in one key. -/
def packedIndex (entries : List NamedElement) : Std.HashMap UInt64 GrammarId :=
  entries.foldl (fun index e => index.insert e.ref.packed e.grammar) ∅

/-- The entries are the elements in the order of their names, with the canonical rows of these. A name
is found if an element has it, and gives the grammar of such an element. For looking up rows it is the
same to have both in one key. -/
structure Finds (c : CompiledSchema) (elements : List (QName × GrammarId)) : Prop where
  entries : (c.globals.entries.toList.map fun e => (e.name, e.grammar)).Perm elements
  ordered : c.globals.entries.toList.Pairwise fun a b =>
    NamedElement.compareName b.uri b.localName a ≠ .gt
  rows : ∀ e ∈ c.globals.entries, c.resolve? e.ref = some e.name
  named : ∀ q, (c.element? q).isSome ↔ ∃ id, (q, id) ∈ elements
  one : ∀ q id, c.element? q = some id → (q, id) ∈ elements
  packed : ∀ uri name : UInt32,
    (packedIndex c.globals.entries.toList)[Text.Hash.pack uri name]? =
      c.elementByRows? ⟨uri.toNat, name.toNat⟩

/-- The order is strict, a name gives the grammar that was registered for it, and rows give that of
the entry with these rows. So the rows of a name give what the name gives. -/
structure FindsEach (c : CompiledSchema) (elements : List (QName × GrammarId)) : Prop where
  increasing : c.globals.entries.toList.Pairwise fun a b =>
    NamedElement.compareName b.uri b.localName a = .lt
  byName : ∀ q id, c.element? q = some id ↔ (q, id) ∈ elements
  byRows : ∀ ref id, c.elementByRows? ref = some id ↔
    ∃ e ∈ c.globals.entries, e.ref = ref ∧ e.grammar = id
  agree : ∀ ref q, c.resolve? ref = some q → c.elementByRows? ref = c.element? q

variable {c : CompiledSchema} {elements : List (QName × GrammarId)} {p p' : NamedElement → Bool}
  {id : GrammarId}

/-- The grammar of the last global element of a kind. -/
def lastGrammar (c : CompiledSchema) (p : NamedElement → Bool) : Option GrammarId :=
  (c.globals.entries.toList.reverse.find? p).map NamedElement.grammar

theorem mem_reverse_entries {e : NamedElement} :
    e ∈ c.globals.entries.toList.reverse ↔ e ∈ c.globals.entries :=
  List.mem_reverse.trans Array.mem_toList_iff

theorem isSome_lastGrammar : (c.lastGrammar p).isSome ↔ ∃ e ∈ c.globals.entries, p e = true := by
  simp only [lastGrammar, Option.isSome_map, List.find?_isSome, mem_reverse_entries]

theorem exists_of_lastGrammar (found : c.lastGrammar p = some id) :
    ∃ e ∈ c.globals.entries, p e = true ∧ e.grammar = id := by
  obtain ⟨e, here, rfl⟩ := Option.map_eq_some_iff.1 found
  exact ⟨e, mem_reverse_entries.1 (List.mem_of_find?_eq_some here), List.find?_some here, rfl⟩

theorem lastGrammar_congr (same : ∀ e ∈ c.globals.entries, p e = p' e) :
    c.lastGrammar p = c.lastGrammar p' :=
  congrArg (Option.map _) (List.find?_congr fun e mem => same e (mem_reverse_entries.1 mem))

/-- It does not matter which one counts where there is only one. -/
theorem lastGrammar_eq_some_iff
    (one : ∀ a ∈ c.globals.entries, ∀ b ∈ c.globals.entries, p a = true → p b = true → a = b) :
    c.lastGrammar p = some id ↔ ∃ e ∈ c.globals.entries, p e = true ∧ e.grammar = id := by
  refine ⟨exists_of_lastGrammar, ?_⟩
  rintro ⟨e, mem, fits, rfl⟩
  obtain ⟨id, found⟩ := Option.isSome_iff_exists.1 (isSome_lastGrammar.2 ⟨e, mem, fits⟩)
  obtain ⟨e', mem', fits', rfl⟩ := exists_of_lastGrammar found
  rw [found, one e' mem' e mem fits' fits]

/-- What the finished schema is made with: sorted entries under the names of their rows, in tables that
have no doubles and no more rows than there are row numbers. -/
structure Indexed (c : CompiledSchema) (elements : List (QName × GrammarId)) : Prop where
  entries : (c.globals.entries.toList.map fun e => (e.name, e.grammar)).Perm elements
  sorted : c.globals.entries.toList.Pairwise fun a b => a.le b = true
  rows : ∀ e ∈ c.globals.entries, c.resolve? e.ref = some e.name
  byRows : c.byRows = indexByRows c.globals.entries.toList
  unique : c.uris.Unique
  bounded : c.uris.Bounded

namespace Indexed

variable (indexed : c.Indexed elements)
include indexed

theorem element?_eq (q : QName) : c.element? q = c.lastGrammar fun e => e.name == q := by
  rw [element?, lastGrammar, ← ElementIndex.lookup_eq_find? indexed.sorted, Array.toArray_toList]

theorem elementByRows?_eq (ref : NameRef) :
    c.elementByRows? ref = c.lastGrammar fun e => e.ref == ref := by
  rw [elementByRows?, indexed.byRows, indexByRows, getElem?_foldl_insert, Std.HashMap.getElem?_empty,
    Option.or_none, lastGrammar]

theorem mem_elements_iff {q : QName} :
    (q, id) ∈ elements ↔ ∃ e ∈ c.globals.entries, e.name = q ∧ e.grammar = id := by
  rw [← indexed.entries.mem_iff, List.mem_map]
  simp only [Array.mem_toList_iff, Prod.mk.injEq]

theorem packed (uri name : UInt32) :
    (packedIndex c.globals.entries.toList)[Text.Hash.pack uri name]? =
      c.elementByRows? ⟨uri.toNat, name.toNat⟩ := by
  rw [packedIndex, getElem?_foldl_insert (fun e => e.ref.packed), Std.HashMap.getElem?_empty,
    Option.or_none, indexed.elementByRows?_eq]
  refine lastGrammar_congr fun e mem => ?_
  obtain ⟨uriLt, nameLt⟩ := indexed.bounded.ref_lt (indexed.rows e mem)
  have key : Text.Hash.pack uri name = NameRef.packed ⟨uri.toNat, name.toNat⟩ := by
    simp [NameRef.packed]
  rw [Bool.eq_iff_iff, beq_iff_eq, beq_iff_eq, key]
  exact ⟨NameRef.packed_injective uriLt nameLt uri.toNat_lt name.toNat_lt, congrArg NameRef.packed⟩

theorem finds : c.Finds elements where
  entries := indexed.entries
  ordered := indexed.sorted.imp NamedElement.le_iff_ne_gt.1
  rows := indexed.rows
  named q := by
    rw [indexed.element?_eq, isSome_lastGrammar]
    simp only [indexed.mem_elements_iff, beq_iff_eq]
    constructor
    · rintro ⟨e, mem, same⟩
      exact ⟨e.grammar, e, mem, same, rfl⟩
    · rintro ⟨_, e, mem, same, _⟩
      exact ⟨e, mem, same⟩
  one q id found := by
    rw [indexed.element?_eq] at found
    obtain ⟨e, mem, same, grammar⟩ := exists_of_lastGrammar found
    exact indexed.mem_elements_iff.2 ⟨e, mem, beq_iff_eq.1 same, grammar⟩
  packed := indexed.packed

/-- Entries with the same rows have the same name, and the other way round. -/
theorem ref_eq_iff {e : NamedElement} (mem : e ∈ c.globals.entries) {ref : NameRef} {q : QName}
    (here : c.resolve? ref = some q) : e.ref = ref ↔ e.name = q := by
  have rows := indexed.rows e mem
  constructor
  · rintro rfl
    exact Option.some.inj (rows.symm.trans here)
  · rintro rfl
    exact Option.some.inj ((indexed.unique.find? rows).symm.trans (indexed.unique.find? here))

theorem nodup_names (distinct : (elements.map Prod.fst).Nodup) :
    (c.globals.entries.toList.map NamedElement.name).Nodup := by
  have perm := indexed.entries.map Prod.fst
  rw [List.map_map] at perm
  exact perm.nodup_iff.2 distinct

theorem eq_of_name (distinct : (elements.map Prod.fst).Nodup) {a b : NamedElement}
    (mem : a ∈ c.globals.entries) (mem' : b ∈ c.globals.entries) (same : a.name = b.name) : a = b :=
  List.inj_on_of_nodup_map (indexed.nodup_names distinct) (Array.mem_toList_iff.2 mem)
    (Array.mem_toList_iff.2 mem') same

theorem findsEach (distinct : (elements.map Prod.fst).Nodup) : c.FindsEach elements where
  increasing :=
    (indexed.sorted.and (List.pairwise_map.1 (indexed.nodup_names distinct))).imp fun both =>
      NamedElement.lt_of_le_of_ne both.1 both.2
  byName q id := by
    rw [indexed.element?_eq, indexed.mem_elements_iff, lastGrammar_eq_some_iff]
    · simp only [beq_iff_eq]
    · intro a mem b mem' same same'
      exact indexed.eq_of_name distinct mem mem' ((beq_iff_eq.1 same).trans (beq_iff_eq.1 same').symm)
  byRows ref id := by
    rw [indexed.elementByRows?_eq, lastGrammar_eq_some_iff]
    · simp only [beq_iff_eq]
    · intro a mem b mem' same same'
      have rows : a.ref = b.ref := (beq_iff_eq.1 same).trans (beq_iff_eq.1 same').symm
      exact indexed.eq_of_name distinct mem mem' ((indexed.ref_eq_iff mem (indexed.rows b mem')).1 rows)
  agree ref q here := by
    rw [indexed.element?_eq, indexed.elementByRows?_eq]
    refine lastGrammar_congr fun e mem => ?_
    rw [Bool.eq_iff_iff, beq_iff_eq, beq_iff_eq]
    exact indexed.ref_eq_iff mem here

end Indexed

end CompiledSchema

namespace Draft

variable {d d' : Draft} {c : CompiledSchema}

theorem Ripe.indexed (ripe : d.Ripe) (run : finish d = .ok c d') : c.Indexed d.elements := by
  obtain ⟨settled, canonical⟩ := exists_of_finish run
  obtain ⟨moves, compiles⟩ := ripe.moves_of_settled settled canonical
  have grows : UriTable.initial.Grows d'.uris := (ripe.grows.trans moves.grows).uris
  have kept := ripe.keptGlobals settled
  obtain ⟨unsorted, each, entries⟩ := compiles.globals
  have named := forall₂_elements (kept.named ripe.globalsNamed)
  rw [kept.elements ripe.globalsNamed] at named
  have same : unsorted.map (fun e => (e.name, e.grammar)) = d.elements := by
    refine List.forall₂_eq_eq_eq ▸ List.forall₂_map_left_iff.2 (forall₂_join each named ?_)
    rintro x e ⟨q, id⟩ made ⟨here, rfl⟩
    obtain ⟨rfl, _, grammar⟩ := NamedElement.ofOld_eq_ok here made
    rw [grammar]
  refine ⟨?_, ?_, (ripe.resolved_of_settled settled canonical).globalNames,
    byRows_of_canonical canonical, ?_, ?_⟩
  · rw [entries, ← same]
    exact (List.mergeSort_perm unsorted _).map _
  · rw [entries]
    exact NamedElement.pairwise_mergeSort unsorted
  · rw [compiles.uris]
    exact (grows.unique UriTable.regular_initial.unique).sorted
  · rw [compiles.uris]
    exact (grows.bounded UriTable.bounded_initial).sorted

/-- Of a finished schema every global element that was registered is found, and no other, whether the
names could be a table's or not. Where no name was registered twice, the name and the rows both give
the grammar that was registered. -/
theorem Ripe.finds_elements (ripe : d.Ripe) (run : finish d = .ok c d') :
    List.Forall₂ (fun x e => d.uris.resolve? x.name = some e.1 ∧ x.grammar = e.2) d.globals.toList
        d.elements ∧
      c.Finds d.elements ∧ ((d.elements.map Prod.fst).Nodup → c.FindsEach d.elements) :=
  have indexed := ripe.indexed run
  ⟨forall₂_elements ripe.globalsNamed, indexed.finds, indexed.findsEach⟩

/-- A draft with two global elements, whose names do not stand in canonical order. -/
def declared : Draft :=
  (Operation.declareGlobal ⟨"urn:a", "y"⟩ 1).after ((Operation.declareGlobal ⟨"urn:b", "x"⟩ 0).after
    (Operation.anyContent.after (Operation.emptyContent.after (start {}))))

theorem declared_finds : declared.Ripe ∧ ∃ c, finish declared = .ok c declared ∧
    (declared.elements.map Prod.fst).Nodup ∧ c.element? ⟨"urn:b", "x"⟩ = some 0 ∧
    c.element? ⟨"urn:a", "y"⟩ = some 1 ∧ c.element? ⟨"urn:ä", "y"⟩ = none := by
  have reachable : declared.Reachable := .after (.after (.after (.after (.start {}) _) _) _) _
  obtain ⟨c, run⟩ := exists_finish reachable (by decide +kernel) (by decide +kernel)
    (by decide +kernel) (by decide +kernel)
  have elements : declared.elements = [(⟨"urn:b", "x"⟩, 0), (⟨"urn:a", "y"⟩, 1)] := by decide +kernel
  have distinct : (declared.elements.map Prod.fst).Nodup := by
    rw [elements]
    decide
  obtain ⟨_, _, each⟩ := Ripe.finds_elements (.reached reachable) run
  have byName := (each distinct).byName
  simp only [elements] at byName
  refine ⟨.reached reachable, c, run, distinct, (byName _ _).2 (by decide), (byName _ _).2 (by decide),
    ?_⟩
  exact Option.eq_none_iff_forall_ne_some.2 fun id found => absurd ((byName _ _).1 found) (by simp)

end Draft

end ExiSchema
