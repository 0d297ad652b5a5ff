import ExiSchema.Proofs.Grammar.Sequence

/-!
The segments of a sequence. Every part stands where those before it end, its ends led on to where the
next one starts, and only the last part keeps its ends.
-/

set_option autoImplicit false

namespace ExiSchema.Grammar

variable {g p : Grammar} {parts : List Grammar}

/-- The segment behind the part at place `i`, if that is not the last one. -/
def nextSegment (parts : List Grammar) (i : Nat) : Option Nat :=
  if i + 1 < parts.length then some (totalSize (parts.take (i + 1))) else none

/-- The grammar is the parts one behind the other. Without parts it is one rule that ends. -/
structure Joins (g : Grammar) (parts : List Grammar) : Prop where
  language : g.language = (parts.map Grammar.language).prod
  size : g.size = if parts = [] then 1 else totalSize parts
  segment : ∀ i p, parts[i]? = some p → Block g p (totalSize (parts.take i)) (nextSegment parts i)
  ends : ∀ k, g.EndsAt k → totalSize parts.dropLast ≤ k

theorem nextSegment_cons (g : Grammar) (gs : List Grammar) (i : Nat) :
    nextSegment (g :: gs) (i + 1) = (nextSegment gs i).map (g.size + ·) := by
  unfold nextSegment
  by_cases more : i + 1 < gs.length
  · rw [if_pos more, if_pos (by simpa using more)]
    simp
  · rw [if_neg more, if_neg (by simpa using more)]
    rfl

theorem block_lay_sequenceBlocks {rules : Array Rule} {i : Nat} (here : parts[i]? = some p) :
    Block ⟨lay rules (sequenceBlocks rules.size parts)⟩ p (rules.size + totalSize (parts.take i))
      ((nextSegment parts i).map (rules.size + ·)) := by
  induction parts generalizing rules i with
  | nil => simp at here
  | cons g gs ih =>
    have block := block_lay_cons rules g (if gs.isEmpty then none else some (rules.size + g.size))
      (sequenceBlocks (rules.size + g.size) gs)
    cases i with
    | zero =>
      obtain rfl : g = p := by simpa using here
      cases gs <;> simpa [nextSegment, sequenceBlocks] using block
    | succ i =>
      have later := @ih (rules ++ g.placedAs rules.size
        (if gs.isEmpty then none else some (rules.size + g.size))) i (by simpa using here)
      rw [Array.size_append, size_placedAs] at later
      simpa [nextSegment_cons, Function.comp_def, Nat.add_assoc, sequenceBlocks, lay] using later

/-- Every rule of a sequence stands in one of the segments. -/
theorem exists_segment {k : Nat} (lt : k < totalSize parts) :
    ∃ i p j, parts[i]? = some p ∧ j < p.size ∧ k = totalSize (parts.take i) + j := by
  induction parts generalizing k with
  | nil => simp at lt
  | cons g gs ih =>
    rw [totalSize_cons] at lt
    by_cases first : k < g.size
    · exact ⟨0, g, k, rfl, first, by simp⟩
    · obtain ⟨i, p, j, here, inside, at_⟩ := @ih (k - g.size) (by omega)
      refine ⟨i + 1, p, j, by simpa using here, inside, ?_⟩
      rw [List.take_succ_cons, totalSize_cons]
      omega

theorem joins_endOnly : endOnly.Joins [] := by
  refine ⟨language_sequence (by simp) sequence_nil, rfl, by simp, by simp⟩

theorem joins_of_sequence (wf : ∀ p ∈ parts, p.WellFormed) (run : sequence parts = .ok g) :
    g.Joins parts := by
  cases parts with
  | nil =>
    cases run
    exact joins_endOnly
  | cons p ps =>
    have size := size_sequence run
    have segment (i : Nat) (q : Grammar) (here : (p :: ps)[i]? = some q) :
        Block g q (totalSize ((p :: ps).take i)) (nextSegment (p :: ps) i) := by
      have block := @block_lay_sequenceBlocks _ _ #[] _ here
      rw [eq_lay_of_sequence run]
      simpa using block
    refine ⟨language_sequence wf run, by simpa using size, segment, fun k ends => ?_⟩
    obtain ⟨i, q, j, here, inside, rfl⟩ := exists_segment (size ▸ ends.lt_size)
    -- an end that is kept is one of the last part
    have last := (((segment i q here).endsAt_iff inside).1 ends).1
    have lt : i < (p :: ps).length := (List.getElem?_eq_some_iff.1 here).1
    have behind : i = (p :: ps).length - 1 := by
      simp [nextSegment] at last lt ⊢
      omega
    rw [List.dropLast_eq_take, ← behind]
    omega

theorem exists_appendSequence {rules : Array Rule}
    (room : rules.size + totalSize parts.dropLast < sizeLimit) :
    ∃ out, appendSequence rules parts = .ok out := by
  induction parts generalizing rules with
  | nil => exact ⟨rules, rfl⟩
  | cons g gs ih =>
    rw [appendSequence, if_pos (by omega)]
    cases gs with
    | nil => exact ⟨_, rfl⟩
    | cons g' gs =>
      refine ih ?_
      rw [List.dropLast_cons_cons, totalSize_cons] at room
      rw [Array.size_append, size_placedTo]
      omega

/-- A sequence can be made if the places at which its parts start can be numbered. -/
theorem exists_sequence (room : totalSize parts.dropLast < sizeLimit) :
    ∃ g, sequence parts = .ok g := by
  unfold sequence
  split
  · exact ⟨_, rfl⟩
  · obtain ⟨rules, run⟩ := @exists_appendSequence _ #[] (by simpa using room)
    exact ⟨⟨rules⟩, by rw [run]; rfl⟩

theorem placed_zero (g : Grammar) : g.placed 0 = g.rules := by
  simp [placed]

theorem sequence_singleton (g : Grammar) : sequence [g] = .ok g := by
  have start : (#[] : Array Rule).size = 0 := rfl
  simp [sequence, appendSequence, sizeLimit, start, placed_zero, Except.map]

end ExiSchema.Grammar
