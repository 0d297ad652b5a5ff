import ExiSchema.Proofs.Actions
import ExiSchema.Proofs.Grammar.Layout

/-!
Sequences of grammars accept words of their parts one after the other.
-/

set_option autoImplicit false

namespace ExiSchema.Grammar

theorem wellFormed_endOnly : endOnly.WellFormed :=
  wellFormed_iff.2 ⟨Nat.one_pos, (rulesStand_empty 1).push ⟨rfl, by simp⟩⟩

/-- The parts of a sequence, each with the place of the next one. -/
def sequenceBlocks (offset : Nat) : List Grammar → List (Grammar × Option Nat)
  | [] => []
  | g :: gs =>
    (g, if gs.isEmpty then none else some (offset + g.size)) :: sequenceBlocks (offset + g.size) gs

@[simp]
theorem map_fst_sequenceBlocks (offset : Nat) (parts : List Grammar) :
    (sequenceBlocks offset parts).map Prod.fst = parts := by
  induction parts generalizing offset with
  | nil => rfl
  | cons g gs ih => simp [sequenceBlocks, ih]

theorem mem_of_mem_sequenceBlocks {offset : Nat} {parts : List Grammar}
    {b : Grammar × Option Nat} (mem : b ∈ sequenceBlocks offset parts) : b.1 ∈ parts := by
  have := List.mem_map_of_mem (f := Prod.fst) mem
  rwa [map_fst_sequenceBlocks] at this

theorem sequenceBlocks_exits {offset m : Nat} {parts : List Grammar} {b : Grammar × Option Nat}
    (wf : ∀ g ∈ parts, g.WellFormed) (mem : b ∈ sequenceBlocks offset parts) (exit : b.2 = some m) :
    offset ≤ m ∧ m < offset + totalSize parts := by
  induction parts generalizing offset with
  | nil => cases mem
  | cons g gs ih =>
    rw [totalSize_cons]
    rcases List.mem_cons.1 mem with rfl | later
    · cases gs with
      | nil => cases exit
      | cons g' gs =>
        cases exit
        have := (wf g' (by simp)).nonempty
        rw [totalSize_cons]
        omega
    · have := ih (fun g mem => wf g (List.mem_cons_of_mem _ mem)) later
      omega

theorem eq_lay_of_appendSequence {rules out : Array Rule} {parts : List Grammar}
    (run : appendSequence rules parts = .ok out) :
    out = lay rules (sequenceBlocks rules.size parts) := by
  induction parts generalizing rules with
  | nil =>
    cases run
    rfl
  | cons g gs ih =>
    rw [appendSequence] at run
    split at run
    · cases gs with
      | nil =>
        cases run
        rfl
      | cons g' gs =>
        have := ih run
        rwa [Array.size_append, size_placedTo] at this
    · cases run

theorem sequence_nil : sequence [] = .ok endOnly := rfl

theorem appendSequence_of_sequence {g p : Grammar} {ps : List Grammar}
    (run : sequence (p :: ps) = .ok g) : appendSequence #[] (p :: ps) = .ok g.rules := by
  obtain ⟨rules, built, rfl⟩ := except_map_eq_ok.1 run
  exact built

theorem eq_lay_of_sequence {g p : Grammar} {ps : List Grammar} (run : sequence (p :: ps) = .ok g) :
    g = ⟨lay #[] (sequenceBlocks 0 (p :: ps))⟩ :=
  congrArg Grammar.mk (eq_lay_of_appendSequence (appendSequence_of_sequence run))

theorem size_sequence {g p : Grammar} {ps : List Grammar} (run : sequence (p :: ps) = .ok g) :
    g.size = totalSize (p :: ps) := by
  rw [eq_lay_of_sequence run]
  change (lay _ _).size = _
  rw [size_lay, map_fst_sequenceBlocks]
  exact Nat.zero_add _

theorem WellFormed.sequence {g : Grammar} {parts : List Grammar}
    (wf : ∀ p ∈ parts, p.WellFormed) (run : sequence parts = .ok g) : g.WellFormed := by
  cases parts with
  | nil =>
    cases run
    exact wellFormed_endOnly
  | cons p ps =>
    have size := size_sequence run
    have first := (wf p List.mem_cons_self).nonempty
    refine wellFormed_iff.2 ⟨by rw [size, totalSize_cons]; omega, ?_⟩
    rw [size, eq_lay_of_sequence run]
    refine RulesStand.lay ?_ ?_ ?_ ?_
    · exact rulesStand_empty _
    · exact fun b mem => wf b.1 (mem_of_mem_sequenceBlocks mem)
    · intro b mem m exit
      have := sequenceBlocks_exits wf mem exit
      omega
    · rw [map_fst_sequenceBlocks]
      exact (Nat.zero_add _).le

theorem acceptsFrom_lay_sequenceBlocks {rules : Array Rule} {g : Grammar} {gs : List Grammar}
    (wf : ∀ p ∈ g :: gs, p.WellFormed) (w : List Event) :
    AcceptsFrom ⟨lay rules (sequenceBlocks rules.size (g :: gs))⟩ rules.size w ↔
      w ∈ ((g :: gs).map language).prod := by
  have here : g.WellFormed := wf g List.mem_cons_self
  induction gs generalizing rules g w with
  | nil =>
    have block := block_lay_cons rules g none []
    have alone := block.acceptsFrom_iff here (w := w) here.nonempty
    rw [List.map_singleton, List.prod_singleton]
    exact alone
  | cons g' gs ih =>
    have block := block_lay_cons rules g (some (rules.size + g.size))
      (sequenceBlocks (rules.size + g.size) (g' :: gs))
    have later : ∀ p ∈ g' :: gs, p.WellFormed := fun p mem => wf p (List.mem_cons_of_mem _ mem)
    have size : (rules ++ g.placedAs rules.size (some (rules.size + g.size))).size =
        rules.size + g.size := by
      rw [Array.size_append, size_placedAs]
    have rest (v : List Event) := @ih (rules ++ g.placedAs rules.size (some (rules.size + g.size)))
      g' later v (later g' List.mem_cons_self)
    rw [size] at rest
    change AcceptsFrom _ (rules.size + 0) w ↔ _
    rw [List.map_cons, List.prod_cons, Language.mem_mul]
    refine (block.acceptsFrom_iff_of_led here here.nonempty).trans ?_
    constructor
    · rintro ⟨u, v, rfl, first, second⟩
      exact ⟨u, first, v, (rest v).1 second, rfl⟩
    · rintro ⟨u, first, v, second, rfl⟩
      exact ⟨u, v, rfl, first, (rest v).2 second⟩

/-- A sequence accepts exactly the words that are made of one word of each part, in order. -/
theorem language_sequence {g : Grammar} {parts : List Grammar}
    (wf : ∀ p ∈ parts, p.WellFormed) (run : sequence parts = .ok g) :
    g.language = (parts.map language).prod := by
  cases parts with
  | nil =>
    cases run
    ext w
    rw [mem_language_iff_reads, List.map_nil, List.prod_nil, Language.mem_one]
    constructor
    · rintro ⟨j, run, _⟩
      cases run with
      | refl _ => rfl
      | step first _ =>
        obtain ⟨r, rule, p, mem, target, _⟩ := first
        cases rule
        cases List.mem_singleton.1 mem
        cases target
    · rintro rfl
      exact ⟨0, .refl 0, _, rfl, rfl⟩
  | cons p ps =>
    ext w
    rw [eq_lay_of_sequence run]
    exact @acceptsFrom_lay_sequenceBlocks #[] p ps wf w

/-- A run through a sequence comes back to the start within the first part only. -/
theorem restarts_sequence {g p : Grammar} {ps : List Grammar}
    (wf : ∀ q ∈ p :: ps, q.WellFormed) (run : sequence (p :: ps) = .ok g) :
    g.restarts = p.restarts := by
  have first : p.WellFormed := wf p List.mem_cons_self
  have block : Block g p 0 (if ps.isEmpty then none else some (0 + p.size)) := by
    rw [eq_lay_of_sequence run]
    exact block_lay_cons #[] p _ _
  have behind (i j : Nat) (u : List Event) (le : p.size ≤ i) (step : Step g i u j) : p.size ≤ j := by
    rw [eq_lay_of_sequence run, sequenceBlocks, lay] at step
    have size : (#[] ++ p.placedAs 0 (if ps.isEmpty then none else some (0 + p.size))).size =
        p.size := by
      rw [Array.size_append, size_placedAs]
      exact Nat.zero_add _
    refine Step.le_lay size.ge ?_ ?_ le step
    · intro k r le rule
      have := (Array.getElem?_eq_some_iff.1 rule).1
      change k < (#[] ++ p.placedAs 0 _).size at this
      omega
    · intro b mem m exit
      have := sequenceBlocks_exits (fun q mem => wf q (List.mem_cons_of_mem _ mem)) mem exit
      omega
  ext w
  constructor
  · intro back
    have nonempty := first.nonempty
    rcases block.reads_or_leaves first back (i := 0) rfl nonempty with
      ⟨j, at_, inner⟩ | ⟨u, v, j, n, rfl, _, _, exit, out⟩
    · obtain rfl : j = 0 := by omega
      exact inner
    · cases ps with
      | nil => cases exit
      | cons q qs =>
        cases exit
        have := out.le_of_forall (fun i u j le step => behind i j u le step) (by omega)
        omega
  · exact fun back => block.reads back

end ExiSchema.Grammar
