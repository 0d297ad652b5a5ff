import ExiSchema.Sorted.Elements
import ExiSchema.Sorted.Relocation
import ExiSchema.Draft.Model

/-!
Compiled schemas: grammars over canonical rows, the canonical tables, and the elements and types by
name. `Draft.finish` makes one of a draft, `Schema.compile` of a type model.
-/

set_option autoImplicit false

namespace ExiSchema

structure CompiledSchema where
  grammars : Array Grammar
  uris : UriTable
  globals : ElementIndex
  locals : List NamedElement
  types : TypeRegistry
  byRows : Std.HashMap NameRef GrammarId

namespace CompiledSchema

def grammar? (c : CompiledSchema) (id : GrammarId) : Option Grammar := c.grammars[id]?

def typeGrammars? (c : CompiledSchema) (name : QName) : Option GrammarPair := c.types.find? name

/-- The grammar of a global element by its canonical rows. -/
def elementByRows? (c : CompiledSchema) (ref : NameRef) : Option GrammarId := c.byRows[ref]?

/-- The grammar of a global element by its name. -/
def element? (c : CompiledSchema) (name : QName) : Option GrammarId :=
  (c.globals.lookup name).map NamedElement.grammar

/-- The grammars of all local elements of a name. -/
def localElements (c : CompiledSchema) (name : QName) : List GrammarId :=
  (c.locals.filter fun e => e.uri.text == name.uri && e.localName.text == name.localName).map
    NamedElement.grammar

def resolve? (c : CompiledSchema) (ref : NameRef) : Option QName := c.uris.resolve? ref

/-- The grammars of entries by their rows; of entries with the same rows the last counts. -/
def indexByRows (entries : List NamedElement) : Std.HashMap NameRef GrammarId :=
  entries.foldl (fun index e => index.insert e.ref e.grammar) ∅

end CompiledSchema

namespace Draft

/-- Moves everything to canonical rows. -/
def canonical (d : Draft) : Except Fault CompiledSchema := do
  let sorted := d.uris.sorted
  let grammars ← sorted.mapping.moveAll d.grammars d.references.toList
  let globals ← NamedElement.sortedEntries sorted
    (d.globals.toList.map fun e => (e.name, e.grammar))
  let locals ← NamedElement.sortedEntries sorted
    (d.locals.toList.map fun e => (e.name, e.grammar))
  return {
    grammars
    uris := sorted.uris
    globals := ⟨globals.toArray⟩
    locals
    types := d.types
    byRows := CompiledSchema.indexByRows globals }

/-- Registers what was put off and moves everything to canonical rows. Nothing may be left on the
stack. -/
def finish : Drafting CompiledSchema := do
  settlePending
  let d ← get
  unless d.stack.isEmpty do
    throw (.inconsistent (.leftOnStack d.stack.length))
  ofExcept d.canonical

end Draft

/-- A compiled schema, and what was left out of it. -/
structure Compilation where
  schema : CompiledSchema
  skips : Array Skip

namespace Schema

def compile (s : Schema) (options : Options) : Except Fault Compilation :=
  let action : Drafting CompiledSchema := do
    Draft.addSchema s
    Draft.finish
  match action (Draft.start options) with
  | .ok schema d => .ok ⟨schema, d.skips⟩
  | .error fault _ => .error fault

end Schema

end ExiSchema
