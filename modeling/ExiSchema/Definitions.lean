import ExiSchema.Compiled
import ExiSchema.Grammar.Named

/-!
Which definition the name of a type stands for, and the grammar that a type has when nothing else
is compiled with it.
-/

set_option autoImplicit false

namespace ExiSchema

/-- The definition that counts for a type: of a name that is declared several times, the first. -/
def Schema.inForce (s : Schema) (t : TypeDef) : TypeDef := (t.name?.bind s.type?).getD t

namespace Draft

/-- The grammar of a type for its content; without a type, that of any content. -/
def held : Option TypeDef → Drafting GrammarId
  | some type => return (← typeGrammars type).grammar
  | none => anyTypeGrammar

/-- The rules of a grammar over the names of the tables. -/
def rules? (d : Draft) (id : GrammarId) : Option (List NamedRule) :=
  d.grammars[id]?.bind (Grammar.named? d.uris)

end Draft

/-- The rules of a type that is compiled alone. -/
def rulesAlone (options : Options) (type : Option TypeDef) :
    Except Fault (Option (List NamedRule)) :=
  match Draft.held type (Draft.start options) with
  | .ok id d => .ok (d.rules? id)
  | .error fault _ => .error fault

/-- The rules of a global element over the names of the canonical tables. -/
def CompiledSchema.rules? (c : CompiledSchema) (name : QName) : Option (List NamedRule) :=
  ((c.element? name).bind c.grammar?).bind (Grammar.named? c.uris)

end ExiSchema
