import ExiSchema.Proofs.Draft.Failing
import ExiSchema.Proofs.Sorted.Naming

/-!
What a compiled schema has of the draft that it was made of: the same grammars and elements, over
canonical rows.
-/

set_option autoImplicit false

namespace ExiSchema

/-- The entry is that of an element of this name, and its grammar is what is built over the canonical
rows. -/
structure CompiledSchema.Presents (c : CompiledSchema) (e : NamedElement) (q : QName)
    (built : Naming → Except Fault Grammar) : Prop where
  name : e.name = q
  ref : c.uris.find? q = some e.ref
  grammar : ∃ g, c.grammar? e.grammar = some g ∧ built c.uris.naming = .ok g

namespace Draft

/-- The compiled schema is the draft over canonical rows. -/
structure Compiles (d : Draft) (c : CompiledSchema) : Prop where
  uris : c.uris = d.uris.sorted.uris
  types : c.types = d.types
  grammars : List.Forall₂ (Grammar.Alike (Event.Renamed d.uris)) d.grammars.toList
    c.grammars.toList
  globals : ∃ unsorted, List.Forall₂ (fun x e =>
      NamedElement.ofOld d.uris.sorted x.name x.grammar = .ok e) d.globals.toList unsorted ∧
    c.globals.entries.toList = unsorted.mergeSort NamedElement.le
  locals : ∃ unsorted, List.Forall₂ (fun x e =>
      NamedElement.ofOld d.uris.sorted x.name x.grammar = .ok e) d.locals.toList unsorted ∧
    c.locals = unsorted.mergeSort NamedElement.le

variable {d : Draft} {c : CompiledSchema}

theorem compiles_of_canonical (tracked : d.store.Tracked) (run : d.canonical = .ok c) :
    d.Compiles c := by
  obtain ⟨grammars', moved', alike⟩ := tracked.moveAll
  obtain ⟨grammars, moved, rest⟩ := except_bind_eq_ok.1 run
  obtain ⟨globals, some, rest⟩ := except_bind_eq_ok.1 rest
  obtain ⟨locals, some', done⟩ := except_bind_eq_ok.1 rest
  cases moved'.symm.trans moved
  cases done
  obtain ⟨unsorted, each, sorted⟩ := NamedElement.sortedEntries_eq_ok some
  obtain ⟨unsorted', each', sorted'⟩ := NamedElement.sortedEntries_eq_ok some'
  exact ⟨rfl, rfl, alike, ⟨unsorted, List.forall₂_map_left_iff.1 each, sorted⟩,
    unsorted', List.forall₂_map_left_iff.1 each', sorted'⟩

namespace Compiles

variable (compiles : d.Compiles c)
include compiles

theorem grammar? {id : GrammarId} {g : Grammar} (here : d.Holds id g) :
    ∃ g', c.grammar? id = some g' ∧ Grammar.Alike (Event.Renamed d.uris) g g' := by
  have here : d.grammars.toList[id]? = some g := by rwa [Array.getElem?_toList]
  have lt := (List.getElem?_eq_some_iff.1 here).1
  have lt' : id < c.grammars.toList.length := compiles.grammars.length_eq ▸ lt
  have alike := (List.forall₂_iff_get.1 compiles.grammars).2 id lt lt'
  refine ⟨c.grammars.toList[id], ?_, ?_⟩
  · rw [CompiledSchema.grammar?, ← Array.getElem?_toList]
    exact List.getElem?_eq_getElem lt'
  · rw [← (List.getElem?_eq_some_iff.1 here).2]
    exact alike

/-- What was built over the old rows is built over the canonical ones. -/
theorem built {id : GrammarId} {built : Naming → Except Fault Grammar} (regular : d.uris.Regular)
    (natural : Natural built) (bears : d.Bears id built) :
    ∃ g, c.grammar? id = some g ∧ built c.uris.naming = .ok g := by
  obtain ⟨g, here, eq⟩ := bears
  obtain ⟨g', there, alike⟩ := compiles.grammar? here
  refine ⟨g', there, ?_⟩
  rw [compiles.uris]
  exact UriTable.built_canonical regular natural eq alike

theorem presents {ref : NameRef} {id : GrammarId} {q : QName} {e : NamedElement}
    {built : Naming → Except Fault Grammar} (regular : d.uris.Regular) (natural : Natural built)
    (found : d.uris.find? q = some ref) (bears : d.Bears id built)
    (run : NamedElement.ofOld d.uris.sorted ref id = .ok e) : c.Presents e q built := by
  obtain ⟨name, moved, rfl⟩ := NamedElement.ofOld_eq_ok (UriTable.resolve?_of_find? found) run
  obtain ⟨new, goes, there⟩ := UriTable.sorted_ref regular found
  cases moved.symm.trans goes
  exact ⟨name, compiles.uris ▸ there, compiles.built regular natural bears⟩

end Compiles

end Draft

end ExiSchema
