import ExiSchema.Draft.Model

/-!
What a caller may ask of a draft, as data, and the drafts that can come of it. Every operation may
be asked with any arguments and in any order; a failing one leaves a draft on which the next runs.
-/

set_option autoImplicit false

namespace ExiSchema

inductive Operation where
  | simpleContent (builtIn : String)
  | emptyContent
  | attributeUse (required : Bool) (name : QName) (builtIn : String)
  | elementTerm (name : QName)
  | wildcardTerm (wildcard : Wildcard)
  | chain (parts : List GrammarId)
  | complexContent (attributes : List GrammarId) (wildcard : Option Wildcard) (content : GrammarId)
  | complexEmpty (attributes : List GrammarId) (wildcard : Option Wildcard)
  | admitAttributes (id : GrammarId) (wildcard : Wildcard)
  | anyContent
  | anyAttributes
  | particle (minOccurs : Nat) (maxOccurs : MaxOccurs) (term : GrammarId)
  | sequence (terms : List GrammarId)
  | choice (terms : List GrammarId)
  | all (terms : List GrammarId)
  | mixed (content : GrammarId)
  | forElement (type : GrammarId)
  | declareLocal (name : NameRef) (type : GrammarId)
  | declareGlobal (name : QName) (id : GrammarId)
  | declareType (name : QName) (grammars : GrammarPair)
  | typeGrammars (type : TypeDef)
  | elementGrammar (decl : ElementDecl)

/-- What an operation gives back. -/
inductive Outcome where
  | grammar (id : GrammarId)
  | type (grammars : GrammarPair)
  | done
deriving DecidableEq, Repr

namespace Operation

def run : Operation → Drafting Outcome
  | .simpleContent builtIn => return .grammar (← Draft.simpleContent builtIn)
  | .emptyContent => return .grammar (← Draft.emptyContent)
  | .attributeUse required name builtIn =>
    return .grammar (← Draft.attributeUse required name builtIn)
  | .elementTerm name => return .grammar (← Draft.elementTerm name)
  | .wildcardTerm wildcard => return .grammar (← Draft.wildcardTerm wildcard)
  | .chain parts => return .grammar (← Draft.chain parts)
  | .complexContent attributes wildcard content =>
    return .grammar (← Draft.complexContent attributes wildcard content)
  | .complexEmpty attributes wildcard =>
    return .grammar (← Draft.complexEmpty attributes wildcard)
  | .admitAttributes id wildcard =>
    return .grammar (← Draft.admitAttributes id wildcard)
  | .anyContent => return .grammar (← Draft.anyContent)
  | .anyAttributes => return .grammar (← Draft.anyAttributes)
  | .particle minOccurs maxOccurs term =>
    return .grammar (← Draft.particle minOccurs maxOccurs term)
  | .sequence terms => return .grammar (← Draft.sequence terms)
  | .choice terms => return .grammar (← Draft.choice terms)
  | .all terms => return .grammar (← Draft.all terms)
  | .mixed content => return .grammar (← Draft.mixed content)
  | .forElement type => return .grammar (← Draft.forElement type)
  | .declareLocal name type => return .grammar (← Draft.declareLocal name type)
  | .declareGlobal name id => do
    Draft.declareGlobal name id
    return .done
  | .declareType name grammars => do
    Draft.declareType name grammars
    return .done
  | .typeGrammars type => return .type (← Draft.typeGrammars type)
  | .elementGrammar decl => return .grammar (← Draft.elementGrammar decl)

/-- The draft that an operation leaves behind, whether it succeeds or fails. -/
def after (op : Operation) (d : Draft) : Draft :=
  match op.run d with
  | .ok _ d => d
  | .error _ d => d

end Operation

namespace Draft

/-- The drafts that operations lead to, starting from nothing. -/
inductive Reachable : Draft → Prop where
  | start (options : Options) : Reachable (start options)
  | after {d : Draft} (h : Reachable d) (op : Operation) : Reachable (op.after d)

end Draft

end ExiSchema
