import ExiSchema.Grammar.Basic

/-!
Building grammars from grammars. A part keeps its rules and their order; it is moved up to the place
where it starts in the whole, and the ends of its words are led on to where the next part starts.
Places of rules have to fit in 32 bits where a part is appended.
-/

set_option autoImplicit false

namespace ExiSchema.Grammar

/-- Accepts the empty word only. -/
def endOnly : Grammar := ⟨#[⟨0, [.endElement]⟩]⟩

/-- Accepts the word of one event. -/
def single (e : Event) : Grammar := ⟨#[⟨0, [⟨e, some 1⟩]⟩, ⟨1, [.endElement]⟩]⟩

/-- Accepts each one-event word of the given events. -/
def oneOf (events : List Event) : Grammar :=
  ⟨#[⟨0, events.map fun e => ⟨e, some 1⟩⟩, ⟨1, [.endElement]⟩]⟩

/-- Any content of any element: attributes, then elements and text. -/
def anything : Grammar :=
  ⟨#[⟨0, [⟨.attributeAny, some 0⟩, ⟨.startElementAny, some 1⟩, .endElement,
        ⟨.charactersUntyped, some 1⟩]⟩,
    ⟨1, [⟨.startElementAny, some 1⟩, .endElement, ⟨.charactersUntyped, some 1⟩]⟩]⟩

/-- Any attributes, then nothing. -/
def anyAttributes : Grammar := ⟨#[⟨0, [⟨.attributeAny, some 0⟩, .endElement]⟩]⟩

/-- The number of rules that a grammar may have when something is appended to it. -/
def sizeLimit : Nat := 0x100000000

/-- The rules of a part that starts at `offset`. -/
def placed (g : Grammar) (offset : Nat) : Array Rule := g.rules.map (·.shifted offset)

/-- The rules of a part that starts at `offset`, with the ends of its words led on to `next`. -/
def placedTo (g : Grammar) (offset next : Nat) : Array Rule :=
  g.rules.map fun r => (r.shifted offset).redirect (.epsilon next)

/-- Appends parts, each led on to the one behind it; the last keeps its ends. -/
def appendSequence (rules : Array Rule) : List Grammar → Except Fault (Array Rule)
  | [] => .ok rules
  | g :: gs =>
    if rules.size < sizeLimit then
      if gs.isEmpty then .ok (rules ++ g.placed rules.size)
      else appendSequence (rules ++ g.placedTo rules.size (rules.size + g.size)) gs
    else .error .memoryAllocation

/-- Words of the parts one after the other; the empty word for no parts. -/
def sequence (parts : List Grammar) : Except Fault Grammar :=
  if parts.isEmpty then .ok endOnly else (appendSequence #[] parts).map Grammar.mk

/-- Free steps to parts that stand one behind the other from `offset` on. -/
def jumpsFrom (offset : Nat) : List Grammar → List Production
  | [] => []
  | g :: gs => .epsilon offset :: jumpsFrom (offset + g.size) gs

/-- Appends parts, each with its own ends. -/
def appendChoices (rules : Array Rule) : List Grammar → Except Fault (Array Rule)
  | [] => .ok rules
  | g :: gs =>
    if rules.size < sizeLimit then appendChoices (rules ++ g.placed rules.size) gs
    else .error .memoryAllocation

/-- Appends parts, each led back to the start rule of the whole. -/
def appendRounds (rules : Array Rule) : List Grammar → Except Fault (Array Rule)
  | [] => .ok rules
  | g :: gs =>
    if rules.size < sizeLimit then appendRounds (rules ++ g.placedTo rules.size 0) gs
    else .error .memoryAllocation

/-- A word of any one of the parts; the empty word for no parts. -/
def choice (parts : List Grammar) : Except Fault Grammar :=
  if parts.isEmpty then .ok endOnly
  else (appendChoices #[⟨0, jumpsFrom 1 parts⟩] parts).map Grammar.mk

/-- Words of the parts in any order, each as often as wanted. -/
def rounds (parts : List Grammar) : Except Fault Grammar :=
  (appendRounds #[⟨0, .endElement :: jumpsFrom 1 parts⟩] parts).map Grammar.mk

/-- Lets the grammar end where it starts. -/
def withEscape (g : Grammar) : Grammar := g.modifyStart (·.add .endElement)

/-- Leads the ends of all rules but the start rule back to the start. -/
def looped (g : Grammar) : Grammar :=
  ⟨g.rules.mapIdx fun i r => if i = 0 then r else r.redirect (.epsilon 0)⟩

/-- Lets the given events happen at the start, as often as wanted. -/
def withStartEvents (g : Grammar) (events : List Event) : Grammar :=
  g.modifyStart fun r => ⟨r.id, r.productions ++ events.map fun e => ⟨e, some 0⟩⟩

/-- Lets text happen everywhere. -/
def withText (g : Grammar) : Grammar :=
  ⟨g.rules.map fun r => r.add ⟨.charactersUntyped, some r.id⟩⟩

@[simp]
theorem size_placed (g : Grammar) (offset : Nat) : (g.placed offset).size = g.size := by
  simp [placed, size]

@[simp]
theorem size_placedTo (g : Grammar) (offset next : Nat) :
    (g.placedTo offset next).size = g.size := by
  simp [placedTo, size]

@[simp]
theorem size_withEscape (g : Grammar) : g.withEscape.size = g.size := size_modifyStart g _

@[simp]
theorem size_looped (g : Grammar) : g.looped.size = g.size := by simp [looped, size]

@[simp]
theorem size_withStartEvents (g : Grammar) (events : List Event) :
    (g.withStartEvents events).size = g.size := size_modifyStart g _

@[simp]
theorem size_withText (g : Grammar) : g.withText.size = g.size := by simp [withText, size]

end ExiSchema.Grammar
