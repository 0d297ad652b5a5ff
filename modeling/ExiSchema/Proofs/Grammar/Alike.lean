import ExiSchema.Proofs.Grammar.Repetition
import ExiSchema.Proofs.Traversal

/-!
Grammars that differ in their events only. What is built of grammars that are alike is alike again,
as long as the relation between the events keeps ends and free steps.
-/

set_option autoImplicit false

namespace ExiSchema

/-- Two computations come to results that are related, or fail with one fault. -/
inductive Agree {α β : Type} (R : α → β → Prop) : Except Fault α → Except Fault β → Prop where
  | ok {a : α} {b : β} (related : R a b) : Agree R (.ok a) (.ok b)
  | error (f : Fault) : Agree R (.error f) (.error f)

namespace Agree

variable {α β γ δ : Type} {R : α → β → Prop} {S : γ → δ → Prop}

theorem refl {x : Except Fault α} : Agree (· = ·) x x := by
  cases x with
  | ok a => exact .ok rfl
  | error f => exact .error f

theorem exists_ok {x : Except Fault α} {y : Except Fault β} {a : α} (agree : Agree R x y)
    (run : x = .ok a) : ∃ b, y = .ok b ∧ R a b := by
  cases agree with
  | ok related =>
    cases run
    exact ⟨_, rfl, related⟩
  | error f => cases run

theorem bind {x : Except Fault α} {y : Except Fault β} {f : α → Except Fault γ}
    {g : β → Except Fault δ} (first : Agree R x y) (rest : ∀ a b, R a b → Agree S (f a) (g b)) :
    Agree S (x >>= f) (y >>= g) := by
  cases first with
  | ok related => exact rest _ _ related
  | error f => exact .error f

theorem map {x : Except Fault α} {y : Except Fault β} {f : α → γ} {g : β → δ} (first : Agree R x y)
    (rest : ∀ a b, R a b → S (f a) (g b)) : Agree S (x.map f) (y.map g) := by
  cases first with
  | ok related => exact .ok (rest _ _ related)
  | error f => exact .error f

theorem ite {p : Prop} [Decidable p] {x x' : Except Fault α} {y y' : Except Fault β}
    (yes : Agree R x y) (no : Agree R x' y') : Agree R (if p then x else x') (if p then y else y') := by
  by_cases h : p
  · rwa [if_pos h, if_pos h]
  · rwa [if_neg h, if_neg h]

theorem mapM {ι : Type} {f : ι → Except Fault α} {g : ι → Except Fault β}
    (each : ∀ i, Agree R (f i) (g i)) (is : List ι) :
    Agree (List.Forall₂ R) (is.mapM f) (is.mapM g) := by
  induction is with
  | nil => exact .ok .nil
  | cons i is ih =>
    simp only [List.mapM_cons]
    exact (each i).bind fun a b first => ih.bind fun as bs rest => .ok (.cons first rest)

end Agree

/-- Relates ends to ends, and every event without names to itself. -/
structure Event.Respected (R : Event → Event → Prop) : Prop where
  plain : ∀ e : Event, e.uri? = none → R e e
  ends : ∀ e e', R e e' → (e = .endElement ↔ e' = .endElement)

structure Production.Alike (R : Event → Event → Prop) (p p' : Production) : Prop where
  event : R p.event p'.event
  target : p'.target = p.target

structure Rule.Alike (R : Event → Event → Prop) (r r' : Rule) : Prop where
  id : r'.id = r.id
  productions : List.Forall₂ (Production.Alike R) r.productions r'.productions

def Grammar.RulesAlike (R : Event → Event → Prop) (rules rules' : Array Rule) : Prop :=
  List.Forall₂ (Rule.Alike R) rules.toList rules'.toList

/-- The same rules with the same productions, up to the events. -/
def Grammar.Alike (R : Event → Event → Prop) (g g' : Grammar) : Prop := RulesAlike R g.rules g'.rules

section

variable {R : Event → Event → Prop} {p p' : Production} {r r' : Rule}

theorem Production.alike_endElement (resp : Event.Respected R) : Alike R endElement endElement :=
  ⟨resp.plain .endElement rfl, rfl⟩

theorem Production.alike_epsilon (resp : Event.Respected R) (rule : Nat) :
    Alike R (epsilon rule) (epsilon rule) := ⟨resp.plain .epsilon rfl, rfl⟩

theorem Production.Alike.isTerminal (resp : Event.Respected R) (alike : Alike R p p') :
    p'.isTerminal = p.isTerminal := by
  have ends := resp.ends _ _ alike.event
  rw [Bool.eq_iff_iff]
  simp only [Production.isTerminal, Bool.and_eq_true, beq_iff_eq, alike.target, ends]

theorem Production.Alike.shifted (alike : Alike R p p') (offset : Nat) :
    Alike R (p.shifted offset) (p'.shifted offset) :=
  ⟨alike.event, congrArg (Option.map (· + offset)) alike.target⟩

theorem Rule.Alike.add (alike : Alike R r r') (last : Production.Alike R p p') :
    Alike R (r.add p) (r'.add p') :=
  ⟨alike.id, List.rel_append alike.productions (.cons last .nil)⟩

theorem Rule.Alike.hasEnd (resp : Event.Respected R) (alike : Alike R r r') :
    r'.hasEnd = r.hasEnd := by
  unfold Rule.hasEnd
  have productions := alike.productions
  generalize r.productions = ps, r'.productions = ps' at productions
  induction productions with
  | nil => rfl
  | cons first _ ih => rw [List.any_cons, List.any_cons, first.isTerminal resp, ih]

theorem Rule.Alike.shifted (alike : Alike R r r') (offset : Nat) :
    Alike R (r.shifted offset) (r'.shifted offset) := by
  refine ⟨congrArg (· + offset) alike.id, ?_⟩
  exact List.forall₂_map_left_iff.2 (List.forall₂_map_right_iff.2
    (alike.productions.imp fun _ _ first => first.shifted offset))

theorem Rule.Alike.redirect (resp : Event.Respected R) (alike : Alike R r r') (rule : Nat) :
    Alike R (r.redirect (.epsilon rule)) (r'.redirect (.epsilon rule)) := by
  refine ⟨alike.id, List.forall₂_map_left_iff.2 (List.forall₂_map_right_iff.2
    (alike.productions.imp fun p p' first => ?_))⟩
  rw [first.isTerminal resp]
  split
  · exact Production.alike_epsilon resp rule
  · exact first

end

namespace Grammar

variable {R : Event → Event → Prop} {g g' : Grammar} {gs gs' : List Grammar}
  {rules rules' : Array Rule}

theorem rulesAlike_iff : RulesAlike R rules rules' ↔
    rules.size = rules'.size ∧
      ∀ (i : Nat) (r r' : Rule), rules[i]? = some r → rules'[i]? = some r' → Rule.Alike R r r' := by
  unfold RulesAlike
  simp only [forall₂_iff_getElem?, Array.length_toList, Array.getElem?_toList]

theorem Alike.size (alike : Alike R g g') : g.size = g'.size := (rulesAlike_iff.1 alike).1

/-- Grammars of which every event has a property are alike to themselves. -/
theorem alike_self_iff {P : Event → Prop} :
    Alike (fun e e' => e = e' ∧ P e) g g ↔ ∀ r ∈ g.rules, ∀ p ∈ r.productions, P p.event := by
  unfold Alike RulesAlike
  simp only [List.forall₂_same, Array.mem_toList_iff]
  constructor
  · intro alike r rule p mem
    exact ((List.forall₂_same.1 (alike r rule).productions) p mem).event.2
  · intro every r rule
    exact ⟨rfl, List.forall₂_same.2 fun p mem => ⟨⟨rfl, every r rule p mem⟩, rfl⟩⟩

theorem RulesAlike.append {more more' : Array Rule} (first : RulesAlike R rules rules')
    (second : RulesAlike R more more') : RulesAlike R (rules ++ more) (rules' ++ more') := by
  unfold RulesAlike
  rw [Array.toList_append, Array.toList_append]
  exact List.rel_append first second

theorem RulesAlike.size (alike : RulesAlike R rules rules') : rules.size = rules'.size :=
  (rulesAlike_iff.1 alike).1

theorem RulesAlike.map {f f' : Rule → Rule} (alike : RulesAlike R rules rules')
    (each : ∀ r r', Rule.Alike R r r' → Rule.Alike R (f r) (f' r')) :
    RulesAlike R (rules.map f) (rules'.map f') := by
  unfold RulesAlike
  rw [Array.toList_map, Array.toList_map]
  exact List.forall₂_map_left_iff.2 (List.forall₂_map_right_iff.2 (alike.imp each))

theorem Alike.placed (alike : Alike R g g') (offset : Nat) :
    RulesAlike R (g.placed offset) (g'.placed offset) :=
  RulesAlike.map alike fun _ _ first => first.shifted offset

theorem Alike.placedTo (resp : Event.Respected R) (alike : Alike R g g') (offset next : Nat) :
    RulesAlike R (g.placedTo offset next) (g'.placedTo offset next) :=
  RulesAlike.map alike fun _ _ first => (first.shifted offset).redirect resp next

theorem Alike.mapIdx {f : Nat → Rule → Rule} (alike : Alike R g g')
    (each : ∀ i r r', Rule.Alike R r r' → Rule.Alike R (f i r) (f i r')) :
    Alike R ⟨g.rules.mapIdx f⟩ ⟨g'.rules.mapIdx f⟩ := by
  obtain ⟨size, rule⟩ := rulesAlike_iff.1 alike
  refine rulesAlike_iff.2 ⟨by simpa using size, ?_⟩
  intro i r r' here here'
  rw [Array.getElem?_mapIdx, Option.map_eq_some_iff] at here here'
  obtain ⟨s, here, rfl⟩ := here
  obtain ⟨s', here', rfl⟩ := here'
  exact each i s s' (rule i s s' here here')

theorem Alike.modifyStart {f f' : Rule → Rule} (alike : Alike R g g')
    (each : ∀ r r', Rule.Alike R r r' → Rule.Alike R (f r) (f' r')) :
    Alike R (g.modifyStart f) (g'.modifyStart f') := by
  obtain ⟨size, rule⟩ := rulesAlike_iff.1 alike
  refine rulesAlike_iff.2 ⟨by simpa [Grammar.modifyStart] using size, ?_⟩
  intro i r r' here here'
  simp only [Grammar.modifyStart, Array.getElem?_modify] at here here'
  by_cases start : 0 = i
  · rw [if_pos start, Option.map_eq_some_iff] at here here'
    obtain ⟨s, here, rfl⟩ := here
    obtain ⟨s', here', rfl⟩ := here'
    exact each s s' (rule i s s' here here')
  · rw [if_neg start] at here here'
    exact rule i r r' here here'

/-! The operations on grammars, one by one. -/

theorem alike_endOnly (resp : Event.Respected R) : Alike R endOnly endOnly :=
  .cons ⟨rfl, .cons (Production.alike_endElement resp) .nil⟩ .nil

theorem alike_oneOf (resp : Event.Respected R) {events events' : List Event}
    (alike : List.Forall₂ R events events') : Alike R (oneOf events) (oneOf events') := by
  refine .cons ⟨rfl, ?_⟩ (.cons ⟨rfl, .cons (Production.alike_endElement resp) .nil⟩ .nil)
  exact List.forall₂_map_left_iff.2 (List.forall₂_map_right_iff.2
    (alike.imp fun _ _ event => ⟨event, rfl⟩))

theorem alike_single (resp : Event.Respected R) {e e' : Event} (event : R e e') :
    Alike R (single e) (single e') := alike_oneOf resp (.cons event .nil)

/-- A grammar without names is alike to itself. -/
theorem alike_plain (resp : Event.Respected R)
    (plain : ∀ r ∈ g.rules, ∀ p ∈ r.productions, p.event.uri? = none) : Alike R g g := by
  unfold Alike RulesAlike
  refine List.forall₂_same.2 fun r rule => ⟨rfl, List.forall₂_same.2 fun p mem => ⟨?_, rfl⟩⟩
  exact resp.plain _ (plain r (Array.mem_toList_iff.1 rule) p mem)

theorem alike_anything (resp : Event.Respected R) : Alike R anything anything :=
  alike_plain resp (by decide)

theorem alike_anyAttributes (resp : Event.Respected R) : Alike R anyAttributes anyAttributes :=
  alike_plain resp (by decide)

theorem Alike.withEscape (resp : Event.Respected R) (alike : Alike R g g') :
    Alike R g.withEscape g'.withEscape :=
  alike.modifyStart fun _ _ rule => rule.add (Production.alike_endElement resp)

theorem Alike.looped (resp : Event.Respected R) (alike : Alike R g g') :
    Alike R g.looped g'.looped := by
  refine alike.mapIdx fun i r r' rule => ?_
  split
  · exact rule
  · exact rule.redirect resp 0

theorem Alike.withStartEvents {events events' : List Event} (alike : Alike R g g')
    (more : List.Forall₂ R events events') :
    Alike R (g.withStartEvents events) (g'.withStartEvents events') := by
  refine alike.modifyStart fun r r' rule => ⟨rule.id, List.rel_append rule.productions ?_⟩
  exact List.forall₂_map_left_iff.2 (List.forall₂_map_right_iff.2
    (more.imp fun _ _ event => ⟨event, rfl⟩))

theorem Alike.withText (resp : Event.Respected R) (alike : Alike R g g') :
    Alike R g.withText g'.withText :=
  RulesAlike.map alike fun _ _ rule =>
    rule.add ⟨resp.plain .charactersUntyped rfl, congrArg some rule.id⟩

theorem Alike.renumber (alike : Alike R g g') : Alike R g.renumber g'.renumber :=
  alike.mapIdx fun _ _ _ rule => ⟨rfl, rule.productions⟩

theorem agree_appendSequence (resp : Event.Respected R) (here : RulesAlike R rules rules')
    (alike : List.Forall₂ (Alike R) gs gs') :
    Agree (RulesAlike R) (appendSequence rules gs) (appendSequence rules' gs') := by
  induction alike generalizing rules rules' with
  | nil => exact .ok here
  | @cons g g' gs gs' first rest ih =>
    have last : gs.isEmpty = gs'.isEmpty := by
      cases rest <;> rfl
    rw [appendSequence, appendSequence, ← here.size, ← first.size, ← last]
    refine .ite (.ite (.ok (here.append (first.placed _))) (ih ?_)) (.error _)
    exact here.append (first.placedTo resp _ _)

theorem agree_appendChoices (here : RulesAlike R rules rules')
    (alike : List.Forall₂ (Alike R) gs gs') :
    Agree (RulesAlike R) (appendChoices rules gs) (appendChoices rules' gs') := by
  induction alike generalizing rules rules' with
  | nil => exact .ok here
  | cons first _ ih =>
    rw [appendChoices, appendChoices, ← here.size]
    exact .ite (ih (here.append (first.placed _))) (.error _)

theorem agree_appendRounds (resp : Event.Respected R) (here : RulesAlike R rules rules')
    (alike : List.Forall₂ (Alike R) gs gs') :
    Agree (RulesAlike R) (appendRounds rules gs) (appendRounds rules' gs') := by
  induction alike generalizing rules rules' with
  | nil => exact .ok here
  | cons first _ ih =>
    rw [appendRounds, appendRounds, ← here.size]
    exact .ite (ih (here.append (first.placedTo resp _ 0))) (.error _)

theorem jumpsFrom_alike (resp : Event.Respected R) (alike : List.Forall₂ (Alike R) gs gs')
    (offset : Nat) :
    List.Forall₂ (Production.Alike R) (jumpsFrom offset gs) (jumpsFrom offset gs') := by
  induction alike generalizing offset with
  | nil => exact .nil
  | cons first _ ih =>
    rw [jumpsFrom, jumpsFrom, ← first.size]
    exact .cons (Production.alike_epsilon resp offset) (ih _)

theorem agree_sequence (resp : Event.Respected R) (alike : List.Forall₂ (Alike R) gs gs') :
    Agree (Alike R) (sequence gs) (sequence gs') := by
  unfold sequence
  cases alike with
  | nil => exact .ok (alike_endOnly resp)
  | cons first rest =>
    exact (agree_appendSequence resp .nil (.cons first rest)).map fun _ _ rules => rules

theorem agree_choice (resp : Event.Respected R) (alike : List.Forall₂ (Alike R) gs gs') :
    Agree (Alike R) (choice gs) (choice gs') := by
  unfold choice
  cases alike with
  | nil => exact .ok (alike_endOnly resp)
  | @cons g g' gs gs' first rest =>
    have start := jumpsFrom_alike resp (.cons first rest) 1
    have here : RulesAlike R #[⟨0, jumpsFrom 1 (g :: gs)⟩] #[⟨0, jumpsFrom 1 (g' :: gs')⟩] :=
      .cons ⟨rfl, start⟩ .nil
    exact (agree_appendChoices here (.cons first rest)).map fun _ _ rules => rules

theorem agree_rounds (resp : Event.Respected R) (alike : List.Forall₂ (Alike R) gs gs') :
    Agree (Alike R) (rounds gs) (rounds gs') := by
  have start := List.Forall₂.cons (Production.alike_endElement resp) (jumpsFrom_alike resp alike 1)
  have here : RulesAlike R #[⟨0, .endElement :: jumpsFrom 1 gs⟩]
      #[⟨0, .endElement :: jumpsFrom 1 gs'⟩] := .cons ⟨rfl, start⟩ .nil
  exact (agree_appendRounds resp here alike).map fun _ _ rules => rules

theorem Alike.escaped (resp : Event.Respected R) (alike : Alike R g g') :
    Alike R g.escaped g'.escaped := by
  have ends : (g'.rule? 0).any Rule.hasEnd = (g.rule? 0).any Rule.hasEnd := by
    obtain ⟨size, rule⟩ := rulesAlike_iff.1 alike
    unfold rule?
    cases here : g.rules[0]? with
    | none =>
      rw [Array.getElem?_eq_none_iff, size] at here
      rw [Array.getElem?_eq_none here]
    | some r =>
      obtain ⟨lt, _⟩ := Array.getElem?_eq_some_iff.1 here
      have lt' : 0 < g'.rules.size := size ▸ lt
      have here' : g'.rules[0]? = some g'.rules[0] := Array.getElem?_eq_getElem lt'
      rw [here', Option.any_some, Option.any_some, (rule 0 _ _ here here').hasEnd resp]
  unfold Grammar.escaped
  rw [ends]
  split
  · exact alike
  · exact alike.withEscape resp

theorem agree_joined (resp : Event.Respected R) (alike : List.Forall₂ (Alike R) gs gs') :
    Agree (Alike R) (joined gs) (joined gs') := by
  match alike with
  | .nil => exact agree_sequence resp .nil
  | .cons first .nil => exact .ok first
  | .cons first (.cons second rest) => exact agree_sequence resp (.cons first (.cons second rest))

theorem agree_repeated (resp : Event.Respected R) (minOccurs : Nat) (maxOccurs : MaxOccurs)
    (alike : Alike R g g') :
    Agree (Alike R) (g.repeated minOccurs maxOccurs) (g'.repeated minOccurs maxOccurs) := by
  cases maxOccurs with
  | bounded count =>
    refine .ite (.error _) (.ite (.ok (alike_endOnly resp)) (.ite (.ok alike) (.ite (.error _) ?_)))
    exact agree_joined resp (List.rel_append (forall₂_replicate alike _)
      (forall₂_replicate (alike.escaped resp) _))
  | unbounded =>
    refine .ite (.error _) (agree_joined resp (List.rel_append (forall₂_replicate alike _) ?_))
    exact .cons ((alike.escaped resp).looped resp) .nil

theorem all_size_eq (alike : List.Forall₂ (Alike R) gs gs') (bound : Nat) :
    gs'.all (·.size < bound) = gs.all (·.size < bound) := by
  induction alike with
  | nil => rfl
  | cons first _ ih => rw [List.all_cons, List.all_cons, ih, first.size]

theorem agree_grouped (resp : Event.Respected R) (compositor : Compositor)
    (alike : List.Forall₂ (Alike R) gs gs') :
    Agree (Alike R) (grouped compositor gs) (grouped compositor gs') := by
  cases compositor with
  | sequence => exact agree_joined resp alike
  | choice =>
    rw [grouped, grouped, all_size_eq alike]
    exact .ite (agree_choice resp alike) (.error _)
  | all =>
    rw [grouped, grouped, all_size_eq alike]
    exact .ite (agree_rounds resp alike) (.error _)

end Grammar

end ExiSchema
