import ExiSchema.Grammar.Sums
import ExiSchema.Proofs.Grammar.Branches

/-!
The sums of choices and all groups. No sum is larger than the place behind all parts, and the places
of the parts are added up first, so a sum that does not fit is always one of those. Copying parts is
refused only where the place of a part does not fit, which is not looked at before all places have been
added up, and never for what lies within the last part.
-/

set_option autoImplicit false

namespace ExiSchema

@[simp]
theorem Rule.numbers_shifted (r : Rule) (offset : Nat) :
    (r.shifted offset).numbers = r.numbers.map (· + offset) := by
  simp [numbers, shifted, Production.shifted, List.filterMap_map, List.map_filterMap]

theorem Rule.pos_of_mem_numbers_shifted {r : Rule} {offset n : Nat} (pos : 0 < offset)
    (mem : n ∈ (r.shifted offset).numbers) : n ≠ 0 := by
  rw [numbers_shifted] at mem
  obtain ⟨k, _, rfl⟩ := List.mem_map.1 mem
  omega

theorem filterMap_target_redirect {ps : List Production}
    (positive : ∀ n ∈ ps.filterMap Production.target, n ≠ 0) :
    ((ps.map fun p => if p.isTerminal then .epsilon 0 else p).filterMap Production.target).filter
      (· ≠ 0) = ps.filterMap Production.target := by
  induction ps with
  | nil => rfl
  | cons p ps ih =>
    rw [List.map_cons]
    cases led : p.target with
    | none =>
      rw [List.filterMap_cons_none led] at positive ⊢
      by_cases terminal : p.isTerminal = true
      · rw [if_pos terminal, List.filterMap_cons]
        exact ih positive
      · rw [if_neg terminal, List.filterMap_cons_none led]
        exact ih positive
    | some j =>
      rw [List.filterMap_cons_some led] at positive ⊢
      obtain ⟨first, rest⟩ := List.forall_mem_cons.1 positive
      rw [Production.isTerminal_of_target_eq_some led, if_neg Bool.false_ne_true,
        List.filterMap_cons_some led, ← ih rest]
      exact List.filter_cons_of_pos (decide_eq_true first)

/-- Leading ends to the start brings in the place of the start, and nothing else. -/
theorem Rule.numbers_redirect {r : Rule} (positive : ∀ n ∈ r.numbers, n ≠ 0) :
    (r.redirect (.epsilon 0)).numbers.filter (· ≠ 0) = r.numbers := by
  obtain ⟨first, rest⟩ := List.forall_mem_cons.1 positive
  rw [numbers, numbers, ← filterMap_target_redirect rest]
  exact List.filter_cons_of_pos (decide_eq_true first)

theorem Rule.numbers_led (r : Rule) {offset : Nat} (pos : 0 < offset) {next : Option Nat}
    (back : ∀ m, next = some m → m = 0) :
    (r.led offset next).numbers.filter (· ≠ 0) = (r.shifted offset).numbers := by
  have positive : ∀ n ∈ (r.shifted offset).numbers, n ≠ 0 := fun _ =>
    pos_of_mem_numbers_shifted pos
  cases next with
  | none => exact List.filter_eq_self.2 fun n mem => decide_eq_true (positive n mem)
  | some m =>
    obtain rfl := back m rfl
    exact numbers_redirect positive

namespace Grammar

variable {g : Grammar} {parts : List Grammar} {offset n : Nat} {next : Option Nat}

theorem isCountable_iff : g.isCountable = true ↔ g.size < sizeLimit := by
  simp [isCountable]

theorem WellFormed.lt_size_of_mem_numbers (wf : g.WellFormed) {r : Rule} (mem : r ∈ g.rules)
    (number : n ∈ r.numbers) : n < g.size := by
  obtain ⟨i, lt, rfl⟩ := Array.mem_iff_getElem.1 mem
  have here : g.rule? i = some g.rules[i] := Array.getElem?_eq_getElem lt
  rcases List.mem_cons.1 number with rfl | target
  · rw [wf.numbered i _ here]
    exact lt
  · obtain ⟨p, inner, leads⟩ := List.mem_filterMap.1 target
    exact wf.targets i _ p n here inner leads

/-- Copies hold no number beyond the last of them. -/
theorem lt_of_mem_copySums (wf : ∀ p ∈ parts, p.WellFormed) (mem : n ∈ copySums offset parts) :
    n < offset + totalSize parts := by
  induction parts generalizing offset with
  | nil => cases mem
  | cons g gs ih =>
    rw [copySums] at mem
    split at mem
    · rw [totalSize_cons]
      rcases List.mem_append.1 mem with first | later
      · obtain ⟨r, copied, number⟩ := List.mem_flatMap.1 first
        rw [Array.mem_toList_iff, placed] at copied
        obtain ⟨s, inner, rfl⟩ := Array.mem_map.1 copied
        rw [Rule.numbers_shifted] at number
        obtain ⟨k, before, rfl⟩ := List.mem_map.1 number
        have := (wf g List.mem_cons_self).lt_size_of_mem_numbers inner before
        omega
      · have := ih (fun p inner => wf p (List.mem_cons_of_mem _ inner)) later
        omega
    · cases mem

/-- The sizes add up to too much if those of the parts up to the first uncountable one do. -/
theorem exists_offsetSums_iff (fits : offset < sizeLimit) :
    (∃ s ∈ offsetSums offset parts, sizeLimit ≤ s) ↔
      sizeLimit ≤ offset + totalSize (parts.takeWhile isCountable) := by
  induction parts generalizing offset with
  | nil => simpa [offsetSums] using fits
  | cons g gs ih =>
    rw [offsetSums]
    split
    · next small =>
      rw [List.takeWhile_cons_of_pos small, totalSize_cons, ← Nat.add_assoc]
      simp only [List.mem_cons, exists_eq_or_imp]
      by_cases more : offset + g.size < sizeLimit
      · rw [ih more]
        exact or_iff_right (Nat.not_le.2 more)
      · exact iff_of_true (.inl (by omega)) (by omega)
    · next large =>
      rw [List.takeWhile_cons_of_neg large]
      simpa using fits

theorem takeWhile_isCountable (small : ∀ p ∈ parts, p.size < sizeLimit) :
    parts.takeWhile isCountable = parts :=
  List.takeWhile_eq_self_iff.2 fun p mem => isCountable_iff.2 (small p mem)

theorem exists_offsetSums_of_le (small : ∀ p ∈ parts, p.size < sizeLimit)
    (large : sizeLimit ≤ 1 + totalSize parts) : ∃ s ∈ offsetSums 1 parts, sizeLimit ≤ s := by
  rwa [exists_offsetSums_iff (by decide), takeWhile_isCountable small]

/-- The first sum that does not fit is the place of a part. -/
theorem exists_sums_iff (wf : ∀ p ∈ parts, p.WellFormed) :
    (∃ s ∈ sums parts, sizeLimit ≤ s) ↔ ∃ s ∈ offsetSums 1 parts, sizeLimit ≤ s := by
  constructor
  · rintro ⟨s, mem, large⟩
    rcases List.mem_append.1 mem with place | copied
    · exact ⟨s, place, large⟩
    · split at copied
      · next small =>
        have small : ∀ p ∈ parts, p.size < sizeLimit := fun p mem =>
          isCountable_iff.1 (List.all_eq_true.1 small p mem)
        have lt := lt_of_mem_copySums wf copied
        exact exists_offsetSums_of_le small (large.trans lt.le)
      · cases copied
  · rintro ⟨s, mem, large⟩
    exact ⟨s, List.mem_append_left _ mem, large⟩

/-- Copies of the parts, one behind the other from `offset` on. -/
def laid (offset : Nat) (next : Option Nat) : List Grammar → List Rule
  | [] => []
  | g :: gs => (g.placedAs offset next).toList ++ laid (offset + g.size) next gs

theorem toList_lay (rules : Array Rule) (parts : List Grammar) (next : Option Nat) :
    (lay rules (parts.map (·, next))).toList = rules.toList ++ laid rules.size next parts := by
  induction parts generalizing rules with
  | nil => exact (List.append_nil _).symm
  | cons g gs ih =>
    rw [List.map_cons, lay, ih, Array.size_append, size_placedAs, Array.toList_append,
      List.append_assoc, laid]

/-- The parts can be numbered: they are small, and each of them starts at a place that fits. -/
structure Numbered (parts : List Grammar) : Prop where
  small : ∀ p ∈ parts, p.size < sizeLimit
  fits : ¬Overlong 1 parts

/-- A grammar from which the sums of its parts can be read off. Its start rule leads to the places of
the parts, which are 1 and what the sizes add up to before the last one. In its other rules there are
the numbers that were moved up, and where ends lead back, the place of the start. -/
structure Shows (g : Grammar) (parts : List Grammar) : Prop where
  places : ∃ r, g.rule? 0 = some r ∧
    r.productions.filterMap Production.target = (1 :: offsetSums 1 parts).dropLast
  copies : (g.rules.toList.tail.flatMap Rule.numbers).filter (· ≠ 0) = copySums 1 parts

theorem numbers_laid (pos : 0 < offset) (fits : ¬Overlong offset parts)
    (back : ∀ m, next = some m → m = 0) :
    ((laid offset next parts).flatMap Rule.numbers).filter (· ≠ 0) = copySums offset parts := by
  induction parts generalizing offset with
  | nil => rfl
  | cons g gs ih =>
    obtain ⟨near, later⟩ := not_or.1 (mt overlong_cons_iff.2 fits)
    have first : ((g.placedAs offset next).toList.flatMap Rule.numbers).filter (· ≠ 0) =
        (g.placed offset).toList.flatMap Rule.numbers := by
      rw [List.filter_flatMap, placedAs, placed, Array.toList_map, Array.toList_map,
        List.flatMap_map, List.flatMap_map]
      exact List.flatMap_congr fun r _ => r.numbers_led pos back
    rw [laid, List.flatMap_append, List.filter_append, first, ih (by omega) later, copySums,
      if_pos (Nat.not_le.1 near)]

theorem filterMap_target_jumpsFrom (small : ∀ p ∈ parts, p.size < sizeLimit) :
    (jumpsFrom offset parts).filterMap Production.target =
      (offset :: offsetSums offset parts).dropLast := by
  induction parts generalizing offset with
  | nil => rfl
  | cons g gs ih =>
    obtain ⟨first, rest⟩ := List.forall_mem_cons.1 small
    rw [jumpsFrom, offsetSums, if_pos (isCountable_iff.2 first), List.dropLast_cons_cons, ← ih rest]
    rfl

theorem Numbered.shows_lay (numbered : Numbered parts) {start : List Production}
    (jumps : start.filterMap Production.target = (jumpsFrom 1 parts).filterMap Production.target)
    (back : ∀ m, next = some m → m = 0) :
    Shows ⟨lay #[⟨0, start⟩] (parts.map (·, next))⟩ parts := by
  refine ⟨⟨⟨0, start⟩, rule?_lay_zero start _, ?_⟩, ?_⟩
  · rw [jumps, filterMap_target_jumpsFrom numbered.small]
  · rw [toList_lay]
    exact numbers_laid Nat.one_pos numbered.fits back

/-- Putting parts together fails if they are too long, and gives a grammar that shows them if they can
be numbered. -/
structure Settles (make : List Grammar → Except Fault Grammar) (parts : List Grammar) : Prop where
  fails : Overlong 1 parts → make parts = .error .memoryAllocation
  makes : Numbered parts → ∃ g, make parts = .ok g ∧ g.Shows parts

theorem settles_choice (parts : List Grammar) : Settles choice parts := by
  cases parts with
  | nil =>
    refine ⟨fun overlong => absurd overlong not_overlong_nil, fun numbered => ⟨endOnly, rfl, ?_⟩⟩
    exact @Numbered.shows_lay [] none numbered [.endElement] rfl (by simp)
  | cons p ps =>
    refine ⟨fun overlong => ?_, fun numbered => ?_⟩
    · rw [choice_cons, if_pos overlong]
    · rw [choice_cons, if_neg numbered.fits]
      exact ⟨_, rfl, numbered.shows_lay rfl (by simp)⟩

theorem settles_rounds (parts : List Grammar) : Settles rounds parts := by
  refine ⟨fun overlong => ?_, fun numbered => ?_⟩
  · rw [rounds_eq, if_pos overlong]
  · rw [rounds_eq, if_neg numbered.fits]
    exact ⟨_, rfl, numbered.shows_lay rfl (by simp)⟩

end Grammar

end ExiSchema
