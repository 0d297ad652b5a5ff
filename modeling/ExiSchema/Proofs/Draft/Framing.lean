import ExiSchema.Draft.Model
import ExiSchema.Proofs.Actions

/-!
What the actions around a walk come to, by what the walk inside comes to: it runs while a name is active,
it may be left out, and its grammars are taken from the stack.
-/

set_option autoImplicit false

namespace ExiSchema.Draft

variable {α : Type} {d : Draft} {action : Drafting α} {fails : Fault → Draft → Prop}

theorem yields_pop : Yields pop d (fun _ d' => ∃ stack, d' = { d with stack }) fun _ d' => d' = d := by
  unfold Yields pop
  cases d.stack with
  | nil => rfl
  | cons id stack => exact ⟨stack, rfl⟩

theorem yields_popMany (n : Nat) :
    Yields (popMany n) d (fun _ d' => ∃ stack, d' = { d with stack }) fun _ d' => d' = d := by
  unfold Yields popMany
  by_cases enough : n ≤ d.stack.length
  · simp only [if_pos enough]
    exact ⟨_, rfl⟩
  · simp only [if_neg enough]

/-- On either outcome the name is no longer active. -/
theorem yields_whileActive_iff {name : QName} {ok : α → Draft → Prop} :
    Yields (whileActive name action) d ok fails ↔
      Yields action { d with active := name :: d.active }
        (fun a d' => ok a { d' with active := d'.active.tail })
        fun f d' => fails f { d' with active := d'.active.tail } := by
  unfold Yields whileActive
  cases action { d with active := name :: d.active } <;> rfl

/-- A part fails with its own fault, unless the fault is one for which it is left out. -/
theorem yields_orSkip_of {part : Part} {ok : Option α → Draft → Prop} {bad : Fault → Draft → Prop}
    (spec : Yields action d (fun a d' => ok (some a) d') bad)
    (skips : ∀ f d', bad f d' → f.isNotImplemented = true → d'.options.skipUnsupported = true →
      ok none { d' with
        skips := d'.skips.push ⟨part, f⟩
        stack := d'.stack.drop (d'.stack.length - d.stack.length) })
    (stops : ∀ f d', bad f d' → (f.isNotImplemented && d'.options.skipUnsupported) = false →
      fails f d') : Yields (orSkip part action) d ok fails := by
  unfold Yields orSkip
  dsimp only
  cases run : action d with
  | ok a d' => exact spec.ok_of_eq run
  | error f d' =>
    have here := spec.fails_of_eq run
    by_cases left : (f.isNotImplemented && d'.options.skipUnsupported) = true
    · obtain ⟨unsupported, may⟩ := Bool.and_eq_true_iff.1 left
      simp only [if_pos left]
      exact skips f d' here unsupported may
    · simp only [if_neg left]
      exact stops f d' here (Bool.eq_false_iff.2 left)

end ExiSchema.Draft
