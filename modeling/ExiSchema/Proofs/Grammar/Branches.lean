import ExiSchema.Proofs.Grammar.Alternatives
import ExiSchema.Proofs.Grammar.Segments

/-!
The branches of choices and all groups. Behind the start rule the parts stand one after the other, each
as a copy of its own: a run comes into a copy at its first rule, and out of it only where the ends of
the copy lead.
-/

set_option autoImplicit false

namespace ExiSchema.Grammar

variable {g p : Grammar} {parts : List Grammar} {next : Option Nat}

/-- Where the copy of the part at place `i` starts. -/
def branchStart (parts : List Grammar) (i : Nat) : Nat := 1 + totalSize (parts.take i)

/-- The grammar is a start rule and a copy of each part. All that leads from the start rule are free
steps to the first rules of the copies. From a rule of a copy a run goes on as in the part, within the
copy, unless it leaves through an end of the part to the rule `next`. -/
structure Branches (g : Grammar) (parts : List Grammar) (next : Option Nat) : Prop where
  size : g.size = 1 + totalSize parts
  covers : ∀ k, 0 < k → k < g.size →
    ∃ i p j, parts[i]? = some p ∧ j < p.size ∧ k = branchStart parts i + j
  enters : ∀ w k, Step g 0 w k ↔ w = [] ∧ ∃ i < parts.length, k = branchStart parts i
  copies : ∀ i p, parts[i]? = some p → Block g p (branchStart parts i) next
  leaves : ∀ i p j w k, parts[i]? = some p → j < p.size → Reads g (branchStart parts i + j) w k →
    (∃ m < p.size, k = branchStart parts i + m ∧ Reads p j w m) ∨
      ∃ u v m n, w = u ++ v ∧ Reads p j u m ∧ p.EndsAt m ∧ next = some n ∧ Reads g n v k

theorem mem_jumpsFrom_iff {offset : Nat} {q : Production} :
    q ∈ jumpsFrom offset parts ↔
      ∃ i < parts.length, q = .epsilon (offset + totalSize (parts.take i)) := by
  induction parts generalizing offset with
  | nil => simp [jumpsFrom]
  | cons g gs ih =>
    rw [jumpsFrom, List.mem_cons, ih]
    constructor
    · rintro (rfl | ⟨i, lt, rfl⟩)
      · exact ⟨0, by simp, by simp⟩
      · exact ⟨i + 1, by simpa using lt, by simp [Nat.add_assoc]⟩
    · rintro ⟨i, lt, rfl⟩
      cases i with
      | zero => simp
      | succ i => exact .inr ⟨i, by simpa using lt, by simp [Nat.add_assoc]⟩

theorem block_lay_of_getElem? {rules : Array Rule} {i : Nat} (here : parts[i]? = some p) :
    Block ⟨lay rules (parts.map (·, next))⟩ p (rules.size + totalSize (parts.take i)) next := by
  induction parts generalizing rules i with
  | nil => simp at here
  | cons g gs ih =>
    cases i with
    | zero =>
      obtain rfl : g = p := by simpa using here
      simpa using block_lay_cons rules g next (gs.map (·, next))
    | succ i =>
      have later := @ih (rules ++ g.placedAs rules.size next) i (by simpa using here)
      rw [Array.size_append, size_placedAs] at later
      simpa [lay, Nat.add_assoc] using later

theorem exists_branch {k : Nat} (start : 0 < k) (lt : k < 1 + totalSize parts) :
    ∃ i p j, parts[i]? = some p ∧ j < p.size ∧ k = branchStart parts i + j := by
  obtain ⟨i, p, j, here, inside, at_⟩ := @exists_segment parts (k - 1) (by omega)
  refine ⟨i, p, j, here, inside, ?_⟩
  unfold branchStart
  omega

/-- Parts behind a start rule that leads to each of them are its branches. -/
theorem branches_of_lay {start : List Production} (wf : ∀ p ∈ parts, p.WellFormed)
    (jumps : ∀ q, q ∈ start ∧ q.target ≠ none ↔ q ∈ jumpsFrom 1 parts) :
    Branches ⟨lay #[⟨0, start⟩] (parts.map (·, next))⟩ parts next := by
  have size : Grammar.size ⟨lay #[⟨0, start⟩] (parts.map (·, next))⟩ = 1 + totalSize parts := by
    change (lay _ _).size = _
    rw [size_lay, map_fst_blocks]
    rfl
  have copies (i : Nat) (p : Grammar) (here : parts[i]? = some p) :
      Block ⟨lay #[⟨0, start⟩] (parts.map (·, next))⟩ p (branchStart parts i) next :=
    @block_lay_of_getElem? p parts next #[⟨0, start⟩] i here
  refine ⟨size, fun k pos lt => exists_branch pos (size ▸ lt), fun w k => ?_, copies, ?_⟩
  · rw [step_lay_zero_iff]
    constructor
    · rintro ⟨q, mem, target, rfl⟩
      have jump : q ∈ jumpsFrom 1 parts := (jumps q).1 ⟨mem, by simp [target]⟩
      obtain ⟨i, lt, rfl⟩ := mem_jumpsFrom_iff.1 jump
      cases target
      exact ⟨rfl, i, lt, rfl⟩
    · rintro ⟨rfl, i, lt, rfl⟩
      have jump := (jumps _).2 (mem_jumpsFrom_iff.2 ⟨i, lt, rfl⟩)
      exact ⟨_, jump.1, rfl, rfl⟩
  · intro i p j w k here lt run
    have known : p.WellFormed := wf p (List.mem_of_getElem? here)
    rcases (copies i p here).reads_or_leaves known run rfl lt with ⟨m, at_, inner⟩ | left
    · exact .inl ⟨m, known.reads_lt inner lt, at_, inner⟩
    · exact .inr left

theorem target_of_mem_jumpsFrom {offset : Nat} {q : Production} (mem : q ∈ jumpsFrom offset parts) :
    q.target ≠ none := by
  obtain ⟨i, _, rfl⟩ := mem_jumpsFrom_iff.1 mem
  simp [Production.epsilon]

/-- No run leaves a branch of a choice. -/
theorem branches_choice (wf : ∀ p ∈ parts, p.WellFormed) (run : choice parts = .ok g) :
    g.Branches parts none := by
  cases parts with
  | nil =>
    cases run
    change Branches ⟨lay #[⟨0, [.endElement]⟩] (List.map (·, none) [])⟩ [] none
    apply branches_of_lay
    · simp
    · simp +contextual [jumpsFrom, Production.endElement]
  | cons p ps =>
    rw [eq_lay_of_choice run]
    apply branches_of_lay wf
    intro q
    exact ⟨And.left, fun mem => ⟨mem, target_of_mem_jumpsFrom mem⟩⟩

/-- A run leaves a branch of an all group only for the start rule. -/
theorem branches_rounds (wf : ∀ p ∈ parts, p.WellFormed) (run : rounds parts = .ok g) :
    g.Branches parts (some 0) := by
  rw [eq_lay_of_rounds run]
  apply branches_of_lay wf
  intro q
  constructor
  · rintro ⟨mem, goesOn⟩
    rcases List.mem_cons.1 mem with rfl | jump
    · exact absurd rfl goesOn
    · exact jump
  · intro mem
    exact ⟨List.mem_cons_of_mem _ mem, target_of_mem_jumpsFrom mem⟩

/-- The parts are put together, or their rules and the start rule are too many. -/
def FitsOrFails {α : Type} (result : Except Fault α) (total : Nat) : Prop :=
  (∃ a, result = .ok a) ∨ result = .error .memoryAllocation ∧ sizeLimit ≤ total

theorem fitsOrFails_unless_overlong {α : Type} (a : α) (parts : List Grammar) :
    FitsOrFails (if Overlong 1 parts then .error .memoryAllocation else .ok a)
      (1 + totalSize parts) := by
  split
  · next overlong =>
    exact .inr ⟨rfl, overlong.2.trans (Nat.add_le_add_left (totalSize_dropLast_le parts) 1)⟩
  · exact .inl ⟨a, rfl⟩

theorem fitsOrFails_choice (parts : List Grammar) :
    FitsOrFails (choice parts) (1 + totalSize parts) := by
  cases parts with
  | nil => exact .inl ⟨endOnly, rfl⟩
  | cons p ps => exact choice_cons p ps ▸ fitsOrFails_unless_overlong _ (p :: ps)

theorem fitsOrFails_rounds (parts : List Grammar) :
    FitsOrFails (rounds parts) (1 + totalSize parts) :=
  rounds_eq parts ▸ fitsOrFails_unless_overlong _ parts

end ExiSchema.Grammar
