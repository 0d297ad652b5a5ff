import Mathlib
import ExiSchema.Grammar.Language
import ExiSchema.Grammar.Shape

/-!
Runs from one rule of a grammar to another. A grammar accepts the words of runs that come to an end;
the words of runs that come back to the start are its restarts.
-/

set_option autoImplicit false

open Computability

namespace ExiSchema

/-- What a step reads. -/
def Production.word (p : Production) : List Event := if p.event = .epsilon then [] else [p.event]

@[simp]
theorem Production.word_epsilon (j : Nat) : (epsilon j).word = [] := rfl

theorem Production.word_of_ne {e : Event} (visible : e ≠ .epsilon) (target : Option Nat) :
    (Production.mk e target).word = [e] := if_neg visible

/-- A step out of a rule, with what it reads and where it leads. -/
def Rule.Offers (r : Rule) (w : List Event) (j : Nat) : Prop :=
  ∃ p ∈ r.productions, p.target = some j ∧ w = p.word

namespace Grammar

variable {g h : Grammar}

def Step (g : Grammar) (i : Nat) (w : List Event) (j : Nat) : Prop :=
  ∃ r, g.rule? i = some r ∧ r.Offers w j

inductive Reads (g : Grammar) : Nat → List Event → Nat → Prop where
  | refl (i : Nat) : Reads g i [] i
  | step {i j k : Nat} {u v : List Event} (first : Step g i u j) (rest : Reads g j v k) :
      Reads g i (u ++ v) k

def EndsAt (g : Grammar) (i : Nat) : Prop := ∃ r, g.rule? i = some r ∧ r.hasEnd = true

/-- The words after which a run may be at the start again. -/
def restarts (g : Grammar) : Language Event := {w | Reads g 0 w 0}

theorem mem_restarts {w : List Event} : w ∈ g.restarts ↔ Reads g 0 w 0 := Iff.rfl

theorem Reads.single {i j : Nat} {u : List Event} (first : Step g i u j) : Reads g i u j := by
  have run := Reads.step first (.refl j)
  rwa [List.append_nil] at run

theorem Reads.trans {i j k : Nat} {u v : List Event} (first : Reads g i u j)
    (second : Reads g j v k) : Reads g i (u ++ v) k := by
  induction first with
  | refl _ => exact second
  | step one _ ih =>
    rw [List.append_assoc]
    exact .step one (ih second)

/-- A run of one grammar is a run of another if each of its steps is one. -/
theorem Reads.map {i j : Nat} {w : List Event} (f : Nat → Nat)
    (steps : ∀ i u j, Step g i u j → Step h (f i) u (f j)) (run : Reads g i w j) :
    Reads h (f i) w (f j) := by
  induction run with
  | refl _ => exact .refl _
  | step first _ ih => exact .step (steps _ _ _ first) ih

theorem Reads.mono {i j : Nat} {w : List Event} (steps : ∀ i u j, Step g i u j → Step h i u j)
    (run : Reads g i w j) : Reads h i w j := run.map id steps

theorem acceptsFrom_iff_reads {i : Nat} {w : List Event} :
    AcceptsFrom g i w ↔ ∃ j, Reads g i w j ∧ g.EndsAt j := by
  constructor
  · intro run
    induction run with
    | stop rule ends => exact ⟨_, .refl _, _, rule, ends⟩
    | jump rule step _ ih =>
      obtain ⟨k, rest, ends⟩ := ih
      exact ⟨k, .step ⟨_, rule, _, step, rfl, rfl⟩ rest, ends⟩
    | @read i j r e w rule step visible _ ih =>
      obtain ⟨k, rest, ends⟩ := ih
      have first : Step g i [e] j := ⟨_, rule, _, step, rfl, (Production.word_of_ne visible _).symm⟩
      exact ⟨k, .step first rest, ends⟩
  · rintro ⟨j, run, ends⟩
    induction run with
    | refl _ =>
      obtain ⟨r, rule, ends⟩ := ends
      exact .stop rule ends
    | step first _ ih =>
      obtain ⟨r, rule, ⟨e, _⟩, mem, rfl, rfl⟩ := first
      by_cases free : e = .epsilon
      · subst free
        exact .jump rule mem (ih ends)
      · rw [Production.word_of_ne free]
        exact .read rule mem free (ih ends)

theorem mem_language_iff_reads {w : List Event} :
    w ∈ g.language ↔ ∃ j, Reads g 0 w j ∧ g.EndsAt j := acceptsFrom_iff_reads

theorem AcceptsFrom.ofReads {i j : Nat} {u v : List Event} (run : Reads g i u j)
    (rest : AcceptsFrom g j v) : AcceptsFrom g i (u ++ v) := by
  obtain ⟨k, second, ends⟩ := acceptsFrom_iff_reads.1 rest
  exact acceptsFrom_iff_reads.2 ⟨k, run.trans second, ends⟩

theorem AcceptsFrom.ofEndsAt {i : Nat} (ends : g.EndsAt i) : AcceptsFrom g i [] :=
  acceptsFrom_iff_reads.2 ⟨i, .refl i, ends⟩

theorem AcceptsFrom.ofStep {i j : Nat} {u v : List Event} (first : Step g i u j)
    (rest : AcceptsFrom g j v) : AcceptsFrom g i (u ++ v) :=
  .ofReads (.single first) rest

/-- Induction on an accepting run, by its steps. -/
@[elab_as_elim]
theorem AcceptsFrom.inductionOnSteps
    {motive : (i : Nat) → (w : List Event) → AcceptsFrom g i w → Prop} {i : Nat} {w : List Event}
    (run : AcceptsFrom g i w) (stop : ∀ i (ends : g.EndsAt i), motive i [] (.ofEndsAt ends))
    (step : ∀ i j u v (first : Step g i u j) (rest : AcceptsFrom g j v), motive j v rest →
      motive i (u ++ v) (.ofStep first rest)) :
    motive i w run := by
  obtain ⟨k, reads, ends⟩ := acceptsFrom_iff_reads.1 run
  induction reads with
  | refl i => exact stop i ends
  | @step i j k u v first rest ih =>
    have accepted := acceptsFrom_iff_reads.2 ⟨k, rest, ends⟩
    exact step i j u v first accepted (ih accepted ends)

/-- A run that leaves a rule from which no step leads below a bound stays above it. -/
theorem Reads.le_of_forall {n i j : Nat} {w : List Event}
    (steps : ∀ i u j, n ≤ i → Step g i u j → n ≤ j) (run : Reads g i w j) (h : n ≤ i) : n ≤ j := by
  induction run with
  | refl _ => exact h
  | step first _ ih => exact ih (steps _ _ _ h first)

theorem one_le_restarts : 1 ≤ g.restarts := by
  rintro w rfl
  exact .refl 0

theorem restarts_mul_restarts_le : g.restarts * g.restarts ≤ g.restarts := by
  rintro _ ⟨u, first, v, second, rfl⟩
  exact first.trans second

theorem restarts_mul_language_le : g.restarts * g.language ≤ g.language := by
  rintro _ ⟨u, first, v, second, rfl⟩
  exact AcceptsFrom.ofReads first second

/-- What leads back to the start does so again and again. -/
theorem kstar_le_restarts {l : Language Event} (back : l ≤ g.restarts) : l∗ ≤ g.restarts :=
  kstar_le_of_mul_le_left one_le_restarts ((mul_le_mul_right back _).trans restarts_mul_restarts_le)

theorem restarts_le_language (ends : g.EndsAt 0) : g.restarts ≤ g.language :=
  fun _ run => mem_language_iff_reads.2 ⟨0, run, ends⟩

end Grammar

end ExiSchema
