import ExiSchema.Draft.Compose
import ExiSchema.Proofs.Grammar.Derived

/-!
What a draft keeps for good: the tables, the grammars and the references to rows. A store changes
in two ways only, by an addition to the tables and by a new grammar that is derived from those
there.
-/

set_option autoImplicit false

namespace ExiSchema

structure Store where
  uris : UriTable
  grammars : Array Grammar
  references : Array RowReference

namespace Store

def inserted (s : Store) (g : Grammar) : Store :=
  { s with
    references := s.references ++ g.references s.grammars.size
    grammars := s.grammars.push g }

inductive Step : Store → Store → Prop where
  | tables {s : Store} {uris : UriTable} (change : s.uris.Change uris) : Step s { s with uris }
  | insert {s : Store} {g : Grammar} (derived : Grammar.Derives s.uris (· ∈ s.grammars) g)
      (room : s.grammars.size < Draft.grammarLimit) : Step s (s.inserted g)

def Grows : Store → Store → Prop := Relation.ReflTransGen Step

theorem Grows.refl (s : Store) : s.Grows s := Relation.ReflTransGen.refl

theorem Grows.trans {s t u : Store} (first : s.Grows t) (second : t.Grows u) : s.Grows u :=
  Relation.ReflTransGen.trans first second

theorem Grows.ofTables {s : Store} {uris : UriTable} (grows : s.uris.Grows uris) :
    s.Grows { s with uris } := by
  induction grows with
  | refl => exact .refl s
  | tail _ change ih => exact Relation.ReflTransGen.tail ih (.tables change)

/-- What holds at a beginning and is kept by every step holds from then on. -/
theorem Grows.invariant {P : Store → Prop} (kept : ∀ s t, Step s t → P s → P t) {s t : Store}
    (grows : s.Grows t) (here : P s) : P t := by
  induction grows with
  | refl => exact here
  | tail _ step ih => exact kept _ _ step ih

theorem Grows.uris {s t : Store} (grows : s.Grows t) : s.uris.Grows t.uris := by
  refine grows.invariant (P := fun t => s.uris.Grows t.uris) ?_ (.refl _)
  intro t u step ih
  cases step with
  | tables change => exact ih.trans change.grows
  | insert _ _ => exact ih

theorem Grows.grammars {s t : Store} (grows : s.Grows t) {i : Nat} {g : Grammar}
    (here : s.grammars[i]? = some g) : t.grammars[i]? = some g := by
  refine grows.invariant (P := fun t => t.grammars[i]? = some g) ?_ here
  intro t u step ih
  cases step with
  | tables _ => exact ih
  | insert _ _ =>
    have lt := (Array.getElem?_eq_some_iff.1 ih).1
    exact (Array.getElem?_push_lt lt).trans (Array.getElem?_eq_getElem lt ▸ ih)

/-- Every grammar is well-formed. -/
def Sound (s : Store) : Prop := ∀ g ∈ s.grammars, g.WellFormed

theorem Grows.sound {s t : Store} (grows : s.Grows t) (sound : s.Sound) : t.Sound := by
  refine grows.invariant ?_ sound
  intro t u step ih
  cases step with
  | tables _ => exact ih
  | insert derived _ =>
    intro g mem
    rcases Array.mem_push.1 mem with old | rfl
    · exact ih g old
    · exact derived.wellFormed ih

end Store

namespace Draft

def store (d : Draft) : Store := ⟨d.uris, d.grammars, d.references⟩

/-- The draft with other tables, grammars and references. -/
def withStore (d : Draft) (s : Store) : Draft :=
  { d with uris := s.uris, grammars := s.grammars, references := s.references }

/-- Names are entered and grammars are added, and nothing else changes. -/
structure Adds (d d' : Draft) : Prop where
  frame : d' = d.withStore d'.store
  grows : d.store.Grows d'.store

theorem Adds.refl (d : Draft) : d.Adds d := ⟨rfl, .refl _⟩

theorem Adds.trans {d e f : Draft} (first : d.Adds e) (second : e.Adds f) : d.Adds f := by
  refine ⟨?_, first.grows.trans second.grows⟩
  rw [second.frame, first.frame]
  rfl

theorem Adds.extends {d d' : Draft} (adds : d.Adds d') : d.uris.Extends d'.uris :=
  adds.grows.uris.extends

theorem Adds.grammars {d d' : Draft} (adds : d.Adds d') {id : GrammarId} {g : Grammar}
    (here : d.grammars[id]? = some g) : d'.grammars[id]? = some g :=
  adds.grows.grammars here

/-- The grammar of a number, or the fault that there is none. -/
def read (d : Draft) (id : GrammarId) : Except Fault Grammar :=
  match d.grammars[id]? with
  | some g => .ok g
  | none => .error (.unknownGrammar id)

theorem read_eq_ok_iff {d : Draft} {id : GrammarId} {g : Grammar} :
    d.read id = .ok g ↔ d.grammars[id]? = some g := by
  unfold read
  split <;> simp_all

/-- An action that only looks, and either gives something or fails. -/
theorem mapM_ofExcept {α β : Type} {d : Draft} {f : α → Drafting β} {p : α → Except Fault β}
    (reads : ∀ x, f x d = ofExcept (p x) d) (xs : List α) :
    (xs.mapM f) d = ofExcept (xs.mapM p) d := by
  induction xs with
  | nil => rfl
  | cons x xs ih =>
    simp only [List.mapM_cons, bind, EStateM.bind, Except.bind, reads]
    cases p x with
    | error fault => rfl
    | ok b =>
      simp only [ofExcept, ih]
      cases xs.mapM p <;> rfl

theorem grammar_eq (id : GrammarId) (d : Draft) : grammar id d = ofExcept (d.read id) d := by
  unfold grammar read ofExcept
  cases d.grammars[id]? <;> rfl

end Draft

end ExiSchema
