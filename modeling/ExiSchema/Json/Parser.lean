import ExiSchema.Json.Basic
import ExiSchema.Json.Token

/-!
JSON values from tokens. The reader keeps the arrays and objects that are open, innermost first, and
what may come next; brackets may nest only so deep.
-/

set_option autoImplicit false

namespace ExiSchema.Json

/-- An open array with its items so far, or an open object with its fields so far and the key whose
value comes next; both are kept backwards. -/
inductive Frame where
  | array (items : List Json)
  | object (fields : Fields) (key : String)

/-- What may come next. -/
inductive Reading where
  | expectValue (outer : List Frame)
  | expectItem (outer : List Frame)
  | afterItem (items : List Json) (outer : List Frame)
  | expectField (outer : List Frame)
  | expectKey (fields : Fields) (outer : List Frame)
  | expectColon (fields : Fields) (key : String) (outer : List Frame)
  | afterField (fields : Fields) (outer : List Frame)
  | finished (result : Json)

namespace Reading

/-- A value is complete. -/
def complete (value : Json) : List Frame → Reading
  | [] => .finished value
  | .array items :: outer => .afterItem (value :: items) outer
  | .object fields key :: outer => .afterField ((key, value) :: fields) outer

/-- A token where a value has to start. -/
def startValue (depthLimit : Nat) (outer : List Frame) : Token → Option Reading
  | .null => some (complete .null outer)
  | .bool value => some (complete (.bool value) outer)
  | .number literal => some (complete (.number literal) outer)
  | .string text => some (complete (.string text) outer)
  | .openArray => if outer.length < depthLimit then some (.expectItem outer) else none
  | .openObject => if outer.length < depthLimit then some (.expectField outer) else none
  | _ => none

def step (depthLimit : Nat) : Reading → Token → Option Reading
  | .expectValue outer, token => startValue depthLimit outer token
  | .expectItem outer, .closeArray => some (complete (.array []) outer)
  | .expectItem outer, token => startValue depthLimit (.array [] :: outer) token
  | .afterItem items outer, .comma => some (.expectValue (.array items :: outer))
  | .afterItem items outer, .closeArray => some (complete (.array items.reverse) outer)
  | .expectField outer, .closeObject => some (complete (.object []) outer)
  | .expectField outer, .string key => some (.expectColon [] key outer)
  | .expectKey fields outer, .string key => some (.expectColon fields key outer)
  | .expectColon fields key outer, .colon => some (.expectValue (.object fields key :: outer))
  | .afterField fields outer, .comma => some (.expectKey fields outer)
  | .afterField fields outer, .closeObject => some (complete (.object fields.reverse) outer)
  | _, _ => none

def run (depthLimit : Nat) : Reading → List Token → Option Json
  | .finished result, [] => some result
  | _, [] => none
  | reading, token :: tokens =>
    match step depthLimit reading token with
    | some next => run depthLimit next tokens
    | none => none

end Reading

/-- The value of a text that holds exactly one, with at most `depthLimit` brackets open at once. -/
def parse? (depthLimit : Nat) (text : String) : Option Json := do
  let tokens ← Token.all? text.toList
  Reading.run depthLimit (.expectValue []) tokens

end ExiSchema.Json
