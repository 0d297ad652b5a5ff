import ExiSchema.Proofs.Grammar.Sequence

/-!
Choices accept the words of any one of their parts, all groups the words of their parts in any
order and number.
-/

set_option autoImplicit false

open Computability

theorem Language.mem_sum {α : Type} {ls : List (Language α)} {w : List α} :
    w ∈ ls.sum ↔ ∃ l ∈ ls, w ∈ l := by
  induction ls with
  | nil => simp [Language.notMem_zero]
  | cons l ls ih =>
    rw [List.sum_cons, Language.mem_add, ih]
    simp only [List.mem_cons, exists_eq_or_imp]

namespace ExiSchema.Grammar

/-- Some part would start at a place that does not fit, counted from `offset` on. -/
def Overlong (offset : Nat) (parts : List Grammar) : Prop :=
  parts ≠ [] ∧ sizeLimit ≤ offset + totalSize parts.dropLast

instance (offset : Nat) (parts : List Grammar) : Decidable (Overlong offset parts) :=
  inferInstanceAs (Decidable (_ ∧ _))

theorem not_overlong_nil {offset : Nat} : ¬Overlong offset [] := fun overlong => overlong.1 rfl

theorem overlong_cons_iff {offset : Nat} {g : Grammar} {gs : List Grammar} :
    Overlong offset (g :: gs) ↔ sizeLimit ≤ offset ∨ Overlong (offset + g.size) gs := by
  cases gs with
  | nil => simp [Overlong]
  | cons h hs =>
    simp only [Overlong, ne_eq, reduceCtorEq, not_false_eq_true, true_and, List.dropLast_cons_cons,
      totalSize_cons]
    omega

/-- If the first part fits, the others decide. -/
theorem ite_overlong_cons {α : Type} (offset : Nat) (g : Grammar) (gs : List Grammar) (failed made : α) :
    (if offset < sizeLimit then if Overlong (offset + g.size) gs then failed else made else failed) =
      if Overlong offset (g :: gs) then failed else made := by
  simp only [overlong_cons_iff, ← Nat.not_lt]
  split
  · next fits => simp only [fits, not_true_eq_false, false_or]
  · next far => simp only [far, not_false_eq_true, true_or, if_true]

theorem appendChoices_eq (rules : Array Rule) (parts : List Grammar) :
    appendChoices rules parts =
      if Overlong rules.size parts then .error .memoryAllocation
      else .ok (lay rules (parts.map (·, none))) := by
  induction parts generalizing rules with
  | nil => rfl
  | cons g gs ih =>
    rw [appendChoices, ih, Array.size_append, size_placed]
    exact ite_overlong_cons rules.size g gs _ _

theorem appendRounds_eq (rules : Array Rule) (parts : List Grammar) :
    appendRounds rules parts =
      if Overlong rules.size parts then .error .memoryAllocation
      else .ok (lay rules (parts.map (·, some 0))) := by
  induction parts generalizing rules with
  | nil => rfl
  | cons g gs ih =>
    rw [appendRounds, ih, Array.size_append, size_placedTo]
    exact ite_overlong_cons rules.size g gs _ _

theorem choice_cons (p : Grammar) (ps : List Grammar) :
    choice (p :: ps) =
      if Overlong 1 (p :: ps) then .error .memoryAllocation
      else .ok ⟨lay #[⟨0, jumpsFrom 1 (p :: ps)⟩] ((p :: ps).map (·, none))⟩ := by
  have start : (#[⟨0, jumpsFrom 1 (p :: ps)⟩] : Array Rule).size = 1 := rfl
  simp only [choice, List.isEmpty_cons, Bool.false_eq_true, if_false]
  rw [appendChoices_eq, start]
  split <;> rfl

theorem rounds_eq (parts : List Grammar) :
    rounds parts =
      if Overlong 1 parts then .error .memoryAllocation
      else .ok ⟨lay #[⟨0, .endElement :: jumpsFrom 1 parts⟩] (parts.map (·, some 0))⟩ := by
  have start : (#[⟨0, .endElement :: jumpsFrom 1 parts⟩] : Array Rule).size = 1 := rfl
  rw [rounds, appendRounds_eq, start]
  split <;> rfl

theorem eq_lay_of_choice {g p : Grammar} {ps : List Grammar} (run : choice (p :: ps) = .ok g) :
    g = ⟨lay #[⟨0, jumpsFrom 1 (p :: ps)⟩] ((p :: ps).map (·, none))⟩ := by
  rw [choice_cons] at run
  split at run
  · cases run
  · exact (Except.ok.inj run).symm

theorem eq_lay_of_rounds {g : Grammar} {parts : List Grammar} (run : rounds parts = .ok g) :
    g = ⟨lay #[⟨0, .endElement :: jumpsFrom 1 parts⟩] (parts.map (·, some 0))⟩ := by
  rw [rounds_eq] at run
  split at run
  · cases run
  · exact (Except.ok.inj run).symm

theorem map_fst_blocks (parts : List Grammar) (next : Option Nat) :
    (parts.map (·, next)).map Prod.fst = parts := by
  rw [List.map_map]
  exact List.map_id parts

theorem exists_block_of_mem_jumpsFrom (rules : Array Rule) {parts : List Grammar} {p : Production}
    (next : Option Nat) (mem : p ∈ jumpsFrom rules.size parts) :
    ∃ j, ∃ g ∈ parts, p = .epsilon j ∧ rules.size ≤ j ∧
      Block ⟨lay rules (parts.map (·, next))⟩ g j next := by
  induction parts generalizing rules with
  | nil => cases mem
  | cons g gs ih =>
    rcases List.mem_cons.1 mem with rfl | later
    · exact ⟨_, g, List.mem_cons_self, rfl, le_rfl, block_lay_cons rules g next _⟩
    · have size : (rules ++ g.placedAs rules.size next).size = rules.size + g.size := by
        rw [Array.size_append, size_placedAs]
      rw [← size] at later
      obtain ⟨j, g', inner, rfl, le, block⟩ := ih _ later
      exact ⟨j, g', List.mem_cons_of_mem _ inner, rfl, by omega, block⟩

theorem exists_jump_of_mem (rules : Array Rule) {parts : List Grammar} {g : Grammar}
    (next : Option Nat) (mem : g ∈ parts) :
    ∃ j, .epsilon j ∈ jumpsFrom rules.size parts ∧
      Block ⟨lay rules (parts.map (·, next))⟩ g j next := by
  induction parts generalizing rules with
  | nil => cases mem
  | cons g' gs ih =>
    rcases List.mem_cons.1 mem with rfl | later
    · exact ⟨_, List.mem_cons_self, block_lay_cons rules g next _⟩
    · obtain ⟨j, jump, block⟩ := ih (rules ++ g'.placedAs rules.size next) later
      rw [Array.size_append, size_placedAs] at jump
      exact ⟨j, List.mem_cons_of_mem _ jump, block⟩

theorem jumpsFrom_fits {offset : Nat} {parts : List Grammar} (wf : ∀ g ∈ parts, g.WellFormed)
    {p : Production} (mem : p ∈ jumpsFrom offset parts) : p.Fits (offset + totalSize parts) := by
  induction parts generalizing offset with
  | nil => cases mem
  | cons g gs ih =>
    rw [totalSize_cons]
    rcases List.mem_cons.1 mem with rfl | later
    · have := (wf g List.mem_cons_self).nonempty
      exact Production.fits_some.2 ⟨by omega, by decide⟩
    · have := ih (fun g mem => wf g (List.mem_cons_of_mem _ mem)) later
      rwa [Nat.add_assoc] at this

theorem WellFormed.lay {start : List Production} {parts : List Grammar} {next : Option Nat}
    (wf : ∀ g ∈ parts, g.WellFormed) (fits : ∀ p ∈ start, p.Fits (1 + totalSize parts))
    (exit : ∀ m, next = some m → m = 0) :
    Grammar.WellFormed ⟨lay #[⟨0, start⟩] (parts.map (·, next))⟩ := by
  have size : (Grammar.lay #[⟨0, start⟩] (parts.map (·, next))).size = 1 + totalSize parts := by
    rw [size_lay, map_fst_blocks]
    rfl
  refine wellFormed_iff.2 ⟨?_, ?_⟩
  · change 0 < (Grammar.lay _ _).size
    omega
  · change RulesStand _ (Grammar.lay _ _).size
    rw [size]
    refine ((rulesStand_empty _).push ⟨rfl, fits⟩).lay ?_ ?_ ?_
    · intro b mem
      obtain ⟨g, inner, rfl⟩ := List.mem_map.1 mem
      exact wf g inner
    · intro b mem m led
      obtain ⟨g, _, rfl⟩ := List.mem_map.1 mem
      have := exit m led
      omega
    · rw [map_fst_blocks]
      exact le_rfl

theorem WellFormed.choice {g : Grammar} {parts : List Grammar} (wf : ∀ p ∈ parts, p.WellFormed)
    (run : choice parts = .ok g) : g.WellFormed := by
  cases parts with
  | nil =>
    cases run
    exact wellFormed_endOnly
  | cons p ps =>
    rw [eq_lay_of_choice run]
    exact .lay wf (fun q mem => jumpsFrom_fits wf mem) (by simp)

theorem WellFormed.rounds {g : Grammar} {parts : List Grammar} (wf : ∀ p ∈ parts, p.WellFormed)
    (run : rounds parts = .ok g) : g.WellFormed := by
  rw [eq_lay_of_rounds run]
  refine .lay wf ?_ (by simp)
  intro q mem
  rcases List.mem_cons.1 mem with rfl | jump
  · exact Production.fits_endElement _
  · exact jumpsFrom_fits wf jump

theorem rule?_lay_zero (start : List Production) (blocks : List (Grammar × Option Nat)) :
    Grammar.rule? ⟨lay #[⟨0, start⟩] blocks⟩ 0 = some ⟨0, start⟩ :=
  getElem?_lay_of_lt blocks Nat.one_pos

theorem step_lay_zero_iff {start : List Production} {blocks : List (Grammar × Option Nat)}
    {u : List Event} {j : Nat} :
    Step ⟨lay #[⟨0, start⟩] blocks⟩ 0 u j ↔ ∃ p ∈ start, p.target = some j ∧ u = p.word :=
  step_iff_of_rule? (rule?_lay_zero start blocks)

theorem endsAt_lay_zero_iff {start : List Production} {blocks : List (Grammar × Option Nat)} :
    EndsAt ⟨lay #[⟨0, start⟩] blocks⟩ 0 ↔ .endElement ∈ start :=
  (endsAt_iff_of_rule? (rule?_lay_zero start blocks)).trans Rule.hasEnd_iff

theorem notMem_jumpsFrom_endElement (offset : Nat) (parts : List Grammar) :
    Production.endElement ∉ jumpsFrom offset parts := by
  induction parts generalizing offset with
  | nil => exact List.not_mem_nil
  | cons g gs ih =>
    intro mem
    rcases List.mem_cons.1 mem with first | later
    · cases first
    · exact ih _ later

/-- A choice of at least one part accepts exactly the words of its parts. -/
theorem language_choice {g p : Grammar} {ps : List Grammar} (wf : ∀ q ∈ p :: ps, q.WellFormed)
    (run : choice (p :: ps) = .ok g) : g.language = ((p :: ps).map language).sum := by
  rw [eq_lay_of_choice run]
  ext w
  rw [Language.mem_sum]
  constructor
  · intro accepted
    obtain ⟨k, reads, ends⟩ := mem_language_iff_reads.1 accepted
    cases reads with
    | refl _ => exact absurd (endsAt_lay_zero_iff.1 ends) (notMem_jumpsFrom_endElement _ _)
    | step first rest =>
      obtain ⟨q, mem, target, rfl⟩ := step_lay_zero_iff.1 first
      obtain ⟨j, part, inner, rfl, _, block⟩ :=
        exists_block_of_mem_jumpsFrom #[⟨0, jumpsFrom 1 (p :: ps)⟩] none mem
      cases target
      have whole := acceptsFrom_iff_reads.2 ⟨k, rest, ends⟩
      exact ⟨_, List.mem_map_of_mem inner,
        (block.acceptsFrom_iff (wf part inner) (i := 0) (wf part inner).nonempty).1 whole⟩
  · rintro ⟨l, mem, accepted⟩
    obtain ⟨part, inner, rfl⟩ := List.mem_map.1 mem
    obtain ⟨j, jump, block⟩ :=
      exists_jump_of_mem #[⟨0, jumpsFrom 1 (p :: ps)⟩] none inner
    have whole := (block.acceptsFrom_iff (wf part inner) (i := 0) (wf part inner).nonempty).2 accepted
    exact AcceptsFrom.ofStep (step_lay_zero_iff.2 ⟨_, jump, rfl, rfl⟩) whole

theorem restarts_choice {g p : Grammar} {ps : List Grammar} (run : choice (p :: ps) = .ok g) :
    g.restarts = 1 := by
  have behind (i j : Nat) (u : List Event) (step : Step g i u j) : 1 ≤ j := by
    rw [eq_lay_of_choice run] at step
    by_cases start : i = 0
    · subst start
      obtain ⟨q, mem, target, rfl⟩ := step_lay_zero_iff.1 step
      obtain ⟨k, _, _, rfl, le, _⟩ :=
        exists_block_of_mem_jumpsFrom #[⟨0, jumpsFrom 1 (p :: ps)⟩] none mem
      cases target
      exact le
    · refine Step.le_lay le_rfl ?_ ?_ (Nat.one_le_iff_ne_zero.2 start) step
      · intro k r le rule
        have := (Array.getElem?_eq_some_iff.1 rule).1
        change k < 1 at this
        omega
      · intro b mem m exit
        obtain ⟨_, _, rfl⟩ := List.mem_map.1 mem
        cases exit
  refine le_antisymm ?_ one_le_restarts
  intro w back
  cases back with
  | refl _ => exact Language.nil_mem_one
  | step first rest =>
    have := rest.le_of_forall (fun i u j _ step => behind i j u step) (behind _ _ _ first)
    omega

/-- A word of a part leads a run through an all group once around. -/
theorem kstar_le_restarts_rounds {g : Grammar} {parts : List Grammar}
    (run : rounds parts = .ok g) : ((parts.map language).sum)∗ ≤ g.restarts := by
  have once (u : List Event) (mem : u ∈ (parts.map language).sum) : Reads g 0 u 0 := by
    rw [eq_lay_of_rounds run]
    obtain ⟨_, part, accepted⟩ := Language.mem_sum.1 mem
    obtain ⟨p, inner, rfl⟩ := List.mem_map.1 part
    obtain ⟨k, reads, ends⟩ := mem_language_iff_reads.1 accepted
    obtain ⟨j, jump, block⟩ :=
      exists_jump_of_mem #[⟨0, .endElement :: jumpsFrom 1 parts⟩] (some 0) inner
    have enter : Step ⟨lay #[⟨0, .endElement :: jumpsFrom 1 parts⟩] (parts.map (·, some 0))⟩ 0
        (Production.epsilon j).word j :=
      step_lay_zero_iff.2 ⟨_, List.mem_cons_of_mem .endElement jump, rfl, rfl⟩
    have leave := (block.step_iff ends.lt_size).2 (.inr ⟨rfl, rfl, ends⟩)
    have around := (Reads.single enter).trans ((block.reads reads).trans (.single leave))
    rwa [Production.word_epsilon, List.nil_append, List.append_nil] at around
  exact kstar_le_restarts once

theorem language_rounds_le {g : Grammar} {parts : List Grammar} (wf : ∀ p ∈ parts, p.WellFormed)
    (run : rounds parts = .ok g) : g.language ≤ ((parts.map language).sum)∗ := by
  have main (x : Nat) (w : List Event) (accepted : AcceptsFrom g x w) :
      (x = 0 → w ∈ ((parts.map language).sum)∗) ∧
        ∀ p ∈ parts, ∀ o i, Block g p o (some 0) → i < p.size → x = o + i →
          ∃ u v, w = u ++ v ∧ AcceptsFrom p i u ∧ v ∈ ((parts.map language).sum)∗ := by
    induction accepted using AcceptsFrom.inductionOnSteps with
    | stop x ends =>
      refine ⟨fun _ => Language.nil_mem_kstar _, ?_⟩
      rintro p _ o i block lt rfl
      cases ((block.endsAt_iff lt).1 ends).1
    | step x y u v first _ ih =>
      constructor
      · rintro rfl
        rw [eq_lay_of_rounds run] at first
        obtain ⟨q, mem, target, rfl⟩ := step_lay_zero_iff.1 first
        rcases List.mem_cons.1 mem with rfl | jump
        · cases target
        · obtain ⟨j, p, inner, rfl, _, block⟩ := exists_block_of_mem_jumpsFrom
            #[⟨0, .endElement :: jumpsFrom 1 parts⟩] (some 0) jump
          cases target
          rw [← eq_lay_of_rounds run] at block
          obtain ⟨a, b, rfl, accepted, rest⟩ :=
            ih.2 p inner _ 0 block (wf p inner).nonempty rfl
          have word : a ∈ (parts.map language).sum :=
            Language.mem_sum.2 ⟨_, List.mem_map_of_mem inner, accepted⟩
          have around : (parts.map language).sum * ((parts.map language).sum)∗ ≤ _ :=
            mul_kstar_le_kstar
          change a ++ b ∈ _
          exact around (Language.append_mem_mul word rest)
      · rintro p inner o i block lt rfl
        rcases (block.step_iff lt).1 first with ⟨j, rfl, within⟩ | ⟨exit, rfl, ends⟩
        · obtain ⟨a, b, rfl, accepted, rest⟩ :=
            ih.2 p inner o j block ((wf p inner).step_lt within) rfl
          exact ⟨u ++ a, b, (List.append_assoc u a b).symm, .ofStep within accepted, rest⟩
        · cases exit
          exact ⟨[], v, rfl, .ofEndsAt ends, ih.1 rfl⟩
  exact fun w accepted => (main 0 w accepted).1 rfl

theorem restarts_rounds_le {g : Grammar} {parts : List Grammar} (run : rounds parts = .ok g) :
    g.restarts ≤ g.language := by
  refine restarts_le_language ?_
  rw [eq_lay_of_rounds run]
  exact endsAt_lay_zero_iff.2 List.mem_cons_self

/-- An all group accepts exactly the words that are made of words of its parts. -/
theorem language_rounds {g : Grammar} {parts : List Grammar} (wf : ∀ p ∈ parts, p.WellFormed)
    (run : rounds parts = .ok g) : g.language = ((parts.map language).sum)∗ :=
  le_antisymm (language_rounds_le wf run)
    ((kstar_le_restarts_rounds run).trans (restarts_rounds_le run))

theorem restarts_rounds {g : Grammar} {parts : List Grammar} (wf : ∀ p ∈ parts, p.WellFormed)
    (run : rounds parts = .ok g) : g.restarts = ((parts.map language).sum)∗ :=
  le_antisymm ((restarts_rounds_le run).trans (language_rounds_le wf run))
    (kstar_le_restarts_rounds run)

end ExiSchema.Grammar
