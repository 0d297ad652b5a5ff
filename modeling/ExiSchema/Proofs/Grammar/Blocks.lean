import ExiSchema.Grammar.Compose
import ExiSchema.Proofs.Grammar.Runs

/-!
Grammars inside larger ones. A block is a grammar that stands from some offset on, with its ends
kept or led on to one rule. A run that starts in a block goes as in the grammar alone until it
leaves through an end.
-/

set_option autoImplicit false

namespace ExiSchema

@[simp]
theorem Production.isTerminal_shifted (p : Production) (offset : Nat) :
    (p.shifted offset).isTerminal = p.isTerminal := by
  cases p
  simp [shifted, isTerminal]

theorem Production.isTerminal_of_target_eq_some {p : Production} {j : Nat}
    (target : p.target = some j) : p.isTerminal = false := by
  simp [isTerminal, target]

@[simp]
theorem Rule.shifted_zero (r : Rule) : r.shifted 0 = r := by
  cases r
  simp [shifted, Production.shifted]

/-- The rule as it stands in a block. -/
def Rule.led (r : Rule) (offset : Nat) : Option Nat → Rule
  | none => r.shifted offset
  | some next => (r.shifted offset).redirect (.epsilon next)

@[simp]
theorem Rule.id_led (r : Rule) (offset : Nat) (next : Option Nat) :
    (r.led offset next).id = r.id + offset := by
  cases next <;> rfl

theorem Rule.mem_led_iff {r : Rule} {offset : Nat} {next : Option Nat} {q : Production} :
    q ∈ (r.led offset next).productions ↔
      ∃ p ∈ r.productions, q = match next with
        | none => p.shifted offset
        | some n => if p.isTerminal then .epsilon n else p.shifted offset := by
  cases next with
  | none => simp only [led, shifted, List.mem_map, eq_comm]
  | some n =>
    simp only [led, shifted, redirect, List.map_map, List.mem_map, Function.comp,
      Production.isTerminal_shifted, eq_comm]

theorem Rule.hasEnd_iff {r : Rule} : r.hasEnd = true ↔ Production.endElement ∈ r.productions := by
  simp [hasEnd, Production.isTerminal_iff]

theorem Rule.hasEnd_led (r : Rule) (offset : Nat) (next : Option Nat) :
    (r.led offset next).hasEnd = (next.isNone && r.hasEnd) := by
  cases next with
  | none => simp [led, shifted, hasEnd, Function.comp_def]
  | some n =>
    simp only [led, redirect, shifted, hasEnd, List.any_map, Option.isNone_some, Bool.false_and,
      List.any_eq_false, Function.comp]
    intro p _
    split
    · exact Bool.false_ne_true
    · assumption

theorem Rule.offers_led_iff {r : Rule} {offset k : Nat} {next : Option Nat} {u : List Event} :
    (r.led offset next).Offers u k ↔
      (∃ j, k = offset + j ∧ r.Offers u j) ∨ (next = some k ∧ u = [] ∧ r.hasEnd = true) := by
  constructor
  · rintro ⟨q, memLed, target, rfl⟩
    obtain ⟨p, mem, rfl⟩ := mem_led_iff.1 memLed
    have moved (shifted : (p.shifted offset).target = some k) :
        ∃ j, k = offset + j ∧ r.Offers p.word j := by
      obtain ⟨j, inner, rfl⟩ := Option.map_eq_some_iff.1 shifted
      exact ⟨j, Nat.add_comm j offset, p, mem, inner, rfl⟩
    cases next with
    | none => exact .inl (moved target)
    | some n =>
      by_cases terminal : p.isTerminal = true
      · simp only [terminal, if_true] at target ⊢
        exact .inr ⟨target, rfl, List.any_eq_true.2 ⟨p, mem, terminal⟩⟩
      · simp only [terminal, Bool.false_eq_true, if_false] at target ⊢
        exact .inl (moved target)
  · rintro (⟨j, rfl, p, mem, target, rfl⟩ | ⟨rfl, rfl, ends⟩)
    · refine ⟨p.shifted offset, mem_led_iff.2 ⟨p, mem, ?_⟩, ?_, rfl⟩
      · cases next with
        | none => rfl
        | some n => simp [Production.isTerminal_of_target_eq_some target]
      · simp [Production.shifted, target, Nat.add_comm]
    · exact ⟨.epsilon k, mem_led_iff.2 ⟨.endElement, hasEnd_iff.1 ends, rfl⟩, rfl, rfl⟩

namespace Grammar

variable {g h : Grammar} {offset : Nat} {next : Option Nat}

def placedAs (g : Grammar) (offset : Nat) (next : Option Nat) : Array Rule :=
  g.rules.map (·.led offset next)

@[simp]
theorem size_placedAs (g : Grammar) (offset : Nat) (next : Option Nat) :
    (g.placedAs offset next).size = g.size := by
  simp [placedAs, size]

theorem rule?_eq_some_of_lt {i : Nat} (lt : i < g.size) : ∃ r, g.rule? i = some r :=
  ⟨_, Array.getElem?_eq_getElem lt⟩

theorem lt_size_of_rule? {i : Nat} {r : Rule} (rule : g.rule? i = some r) : i < g.size :=
  (Array.getElem?_eq_some_iff.1 rule).1

theorem Step.lt_size {i j : Nat} {u : List Event} (step : Step g i u j) : i < g.size := by
  obtain ⟨r, rule, _⟩ := step
  exact lt_size_of_rule? rule

theorem EndsAt.lt_size {i : Nat} (ends : g.EndsAt i) : i < g.size := by
  obtain ⟨r, rule, _⟩ := ends
  exact lt_size_of_rule? rule

theorem WellFormed.step_lt {i j : Nat} {u : List Event} (wf : g.WellFormed)
    (step : Step g i u j) : j < g.size := by
  obtain ⟨r, rule, p, mem, target, _⟩ := step
  exact wf.targets i r p j rule mem target

theorem WellFormed.reads_lt {i j : Nat} {w : List Event} (wf : g.WellFormed)
    (run : Reads g i w j) (lt : i < g.size) : j < g.size := by
  induction run with
  | refl _ => exact lt
  | step first _ ih => exact ih (wf.step_lt first)

/-- `h` holds the rules of `g` from `offset` on, their ends led on to `next` if there is one. -/
def Block (h g : Grammar) (offset : Nat) (next : Option Nat) : Prop :=
  ∀ i r, g.rule? i = some r → h.rule? (offset + i) = some (r.led offset next)

theorem step_iff_of_rule? {i j : Nat} {u : List Event} {r : Rule} (rule : g.rule? i = some r) :
    Step g i u j ↔ r.Offers u j :=
  ⟨fun ⟨_, rule', offers⟩ => Option.some.inj (rule.symm.trans rule') ▸ offers,
    fun offers => ⟨r, rule, offers⟩⟩

theorem endsAt_iff_of_rule? {i : Nat} {r : Rule} (rule : g.rule? i = some r) :
    g.EndsAt i ↔ r.hasEnd = true :=
  ⟨fun ⟨_, rule', ends⟩ => Option.some.inj (rule.symm.trans rule') ▸ ends,
    fun ends => ⟨r, rule, ends⟩⟩

theorem Block.step_iff (block : Block h g offset next) {i k : Nat} {u : List Event}
    (lt : i < g.size) :
    Step h (offset + i) u k ↔
      (∃ j, k = offset + j ∧ Step g i u j) ∨ (next = some k ∧ u = [] ∧ g.EndsAt i) := by
  obtain ⟨r, rule⟩ := rule?_eq_some_of_lt lt
  rw [step_iff_of_rule? (block i r rule), Rule.offers_led_iff, endsAt_iff_of_rule? rule]
  simp only [step_iff_of_rule? rule]

theorem Block.endsAt_iff (block : Block h g offset next) {i : Nat} (lt : i < g.size) :
    h.EndsAt (offset + i) ↔ next = none ∧ g.EndsAt i := by
  obtain ⟨r, rule⟩ := rule?_eq_some_of_lt lt
  rw [endsAt_iff_of_rule? (block i r rule), endsAt_iff_of_rule? rule, Rule.hasEnd_led,
    Bool.and_eq_true, Option.isNone_iff_eq_none]

theorem Block.reads (block : Block h g offset next) {i j : Nat} {w : List Event}
    (run : Reads g i w j) : Reads h (offset + i) w (offset + j) :=
  run.map (offset + ·) fun _ _ j step =>
    (block.step_iff step.lt_size).2 (.inl ⟨j, rfl, step⟩)

/-- A run from inside a block stays there, or it leaves through an end. -/
theorem Block.reads_or_leaves (block : Block h g offset next) (wf : g.WellFormed) {x k : Nat}
    {w : List Event} (run : Reads h x w k) {i : Nat} (at_ : x = offset + i) (lt : i < g.size) :
    (∃ j, k = offset + j ∧ Reads g i w j) ∨
      ∃ u v j n, w = u ++ v ∧ Reads g i u j ∧ g.EndsAt j ∧ next = some n ∧ Reads h n v k := by
  induction run generalizing i with
  | refl _ => exact .inl ⟨i, at_, .refl i⟩
  | @step x y k a w first rest ih =>
    subst at_
    rcases (block.step_iff lt).1 first with ⟨m, rfl, inner⟩ | ⟨exit, rfl, ends⟩
    · rcases ih rfl (wf.step_lt inner) with ⟨j, rfl, run⟩ | ⟨u, v, j, n, rfl, run, ends, exit, out⟩
      · exact .inl ⟨j, rfl, .step inner run⟩
      · exact .inr ⟨a ++ u, v, j, n, (List.append_assoc a u v).symm, .step inner run, ends, exit,
          out⟩
    · exact .inr ⟨[], w, i, y, rfl, .refl i, ends, exit, rest⟩

theorem Block.acceptsFrom_iff (block : Block h g offset none) (wf : g.WellFormed) {i : Nat}
    {w : List Event} (lt : i < g.size) : AcceptsFrom h (offset + i) w ↔ AcceptsFrom g i w := by
  simp only [acceptsFrom_iff_reads]
  constructor
  · rintro ⟨k, run, ends⟩
    rcases block.reads_or_leaves wf run rfl lt with ⟨j, rfl, inner⟩ | ⟨_, _, _, _, _, _, _, exit, _⟩
    · exact ⟨j, inner, ((block.endsAt_iff (wf.reads_lt inner lt)).1 ends).2⟩
    · cases exit
  · rintro ⟨j, run, ends⟩
    exact ⟨offset + j, block.reads run, (block.endsAt_iff ends.lt_size).2 ⟨rfl, ends⟩⟩

theorem Block.acceptsFrom_iff_of_led {n : Nat} (block : Block h g offset (some n))
    (wf : g.WellFormed) {i : Nat} {w : List Event} (lt : i < g.size) :
    AcceptsFrom h (offset + i) w ↔
      ∃ u v, w = u ++ v ∧ AcceptsFrom g i u ∧ AcceptsFrom h n v := by
  constructor
  · intro accepted
    obtain ⟨k, run, ends⟩ := acceptsFrom_iff_reads.1 accepted
    rcases block.reads_or_leaves wf run rfl lt with
      ⟨j, rfl, inner⟩ | ⟨u, v, j, _, rfl, inner, endsInside, exit, rest⟩
    · cases ((block.endsAt_iff (wf.reads_lt inner lt)).1 ends).1
    · cases exit
      exact ⟨u, v, rfl, acceptsFrom_iff_reads.2 ⟨j, inner, endsInside⟩,
        acceptsFrom_iff_reads.2 ⟨k, rest, ends⟩⟩
  · rintro ⟨u, v, rfl, inside, rest⟩
    obtain ⟨j, run, ends⟩ := acceptsFrom_iff_reads.1 inside
    have exit : Step h (offset + j) [] n := (block.step_iff ends.lt_size).2 (.inr ⟨rfl, rfl, ends⟩)
    exact .ofReads (block.reads run) (.ofReads (.single exit) rest)

end Grammar

end ExiSchema
