import ExiSchema.Compiled
import ExiSchema.Schema.Parts

/-!
Type models that differ in the order of their declarations, and compiled schemas that differ in the
numbers of their grammars.
-/

set_option autoImplicit false

namespace ExiSchema

namespace Schema

/-- Types of one name are equal, wherever they stand, and no two global elements have one name. -/
structure Consistent (s : Schema) : Prop where
  types : ∀ t ∈ s.allTypes, ∀ t' ∈ s.allTypes, ∀ name, t.name? = some name →
    t'.name? = some name → t = t'
  elements : (s.elements.map ElementDecl.name).Nodup

/-- The same declarations in another order. -/
structure Reorders (s s' : Schema) : Prop where
  types : s.types.Perm s'.types
  elements : s.elements.Perm s'.elements

end Schema

/-- What is seen of an element where grammars have no numbers. -/
structure ElementView where
  uri : Label
  localName : Label
  ref : NameRef
  grammar : Option Grammar

namespace CompiledSchema

def view (c : CompiledSchema) (e : NamedElement) : ElementView :=
  ⟨e.uri, e.localName, e.ref, c.grammar? e.grammar⟩

/-- What is seen of a named type: its grammars for content and for empty content. -/
def typeView (c : CompiledSchema) (name : QName) : Option (Option Grammar × Option Grammar) :=
  (c.typeGrammars? name).map fun pair => (c.grammar? pair.grammar, c.grammar? pair.empty)

/-- Types and elements have the numbers of grammars. -/
structure Closed (c : CompiledSchema) : Prop where
  types : ∀ name pair, c.typeGrammars? name = some pair →
    (c.grammar? pair.grammar).isSome ∧ (c.grammar? pair.empty).isSome
  globals : ∀ e ∈ c.globals.entries.toList, (c.grammar? e.grammar).isSome
  locals : ∀ e ∈ c.locals, (c.grammar? e.grammar).isSome

/-- The same canonical tables, types and elements, but for the numbers of grammars. -/
structure SameUpToNumbers (c c' : CompiledSchema) : Prop where
  uris : c.uris = c'.uris
  types : ∀ name, c.typeView name = c'.typeView name
  globals : c.globals.entries.toList.map c.view = c'.globals.entries.toList.map c'.view
  locals : (c.locals.map c.view).Perm (c'.locals.map c'.view)

end CompiledSchema

end ExiSchema
