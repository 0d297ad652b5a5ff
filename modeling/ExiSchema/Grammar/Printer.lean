import ExiSchema.Grammar.Basic

/-!
Grammars as text: a line for each rule, and below it a line for each of its productions.
-/

set_option autoImplicit false

namespace ExiSchema

namespace NameRef

def toText (q : NameRef) : String := toString q.uri ++ ":" ++ toString q.name

end NameRef

namespace Event

def toText : Event → String
  | .endElement => "EE"
  | .characters value => "CH [" ++ value.name ++ "]"
  | .charactersUntyped => "CH [untyped]"
  | .startElement name => "SE(" ++ name.toText ++ ")"
  | .startElementNs uri => "SE(" ++ toString uri ++ ":*)"
  | .startElementAny => "SE(*)"
  | .attribute name value => "AT(" ++ name.toText ++ ") [" ++ value.name ++ "]"
  | .attributeNs uri => "AT(" ++ toString uri ++ ":*)"
  | .attributeAny => "AT(*)"
  | .epsilon => "ε"

end Event

namespace Production

def toText (p : Production) : String :=
  match p.target with
  | some rule => p.event.toText ++ " -> " ++ toString rule
  | none => p.event.toText

end Production

namespace Grammar

def toText (g : Grammar) : String :=
  g.rules.foldl
    (fun text r =>
      r.productions.foldl (fun text p => text ++ "    " ++ p.toText ++ "\n")
        (text ++ "  rule " ++ toString r.id ++ ":\n"))
    ""

end Grammar

end ExiSchema
