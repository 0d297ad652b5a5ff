import ExiSchema.Draft.Compose

/-!
What a draft registers under names: types, global elements and local elements.
-/

set_option autoImplicit false

namespace ExiSchema.Draft

def declareGlobal (name : QName) (id : GrammarId) : Drafting Unit := do
  let _ ← grammar id
  let ref ← enterName name
  modify fun d => { d with globals := d.globals.push ⟨ref, id⟩ }

/-- The grammar that local elements of this name and this type share, if there is one yet. -/
def localGrammar? (d : Draft) (name : NameRef) (type : GrammarId) : Option GrammarId :=
  (d.locals.find? fun e => e.name == name && e.type == type).map LocalElement.grammar

/-- The grammar of a local element: the shared one, or a new one. -/
def declareLocal (name : NameRef) (type : GrammarId) : Drafting GrammarId := do
  match (← get).localGrammar? name type with
  | some shared => return shared
  | none =>
    let id ← forElement type
    modify fun d => { d with locals := d.locals.push ⟨name, type, id⟩ }
    return id

def declareType (name : QName) (grammars : GrammarPair) : Drafting Unit := do
  let _ ← grammar grammars.grammar
  let _ ← grammar grammars.empty
  modify fun d => { d with types := d.types.insert name grammars }

end ExiSchema.Draft
