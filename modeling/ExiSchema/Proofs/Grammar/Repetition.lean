import Mathlib
import ExiSchema.Draft.Compose
import ExiSchema.Schema.Meaning
import ExiSchema.Proofs.Grammar.Alternatives
import ExiSchema.Proofs.Grammar.Loops

/-!
Repetition of a grammar within bounds. A copy that may be left out is free to end where it starts,
so a run may also stop there when it has come back; the language says which words that lets in.
-/

set_option autoImplicit false

open Computability

namespace ExiSchema

/-- Words after which a run is back at a start, for a language that is accepted from there. -/
structure Returns (l back : Language Event) : Prop where
  refl : 1 ≤ back
  trans : back * back ≤ back
  absorb : back * l ≤ l

theorem Grammar.returns (g : Grammar) : Returns g.language g.restarts :=
  ⟨one_le_restarts, restarts_mul_restarts_le, restarts_mul_language_le⟩

/-- Words of a language within bounds, where in place of a copy that may be left out a run may also
stop after coming back to its start. -/
def repeatedOpen (minOccurs : Nat) (maxOccurs : MaxOccurs) (l back : Language Event) :
    Language Event :=
  {w | ∃ k, minOccurs ≤ k ∧
    (maxOccurs.allows k ∧ w ∈ l ^ k ∨ maxOccurs.allows (k + 1) ∧ w ∈ l ^ k * back)}

theorem repeated_le_repeatedOpen (minOccurs : Nat) (maxOccurs : MaxOccurs)
    (l back : Language Event) :
    repeated minOccurs maxOccurs l ≤ repeatedOpen minOccurs maxOccurs l back :=
  fun _ ⟨k, le, allowed, word⟩ => ⟨k, le, .inl ⟨allowed, word⟩⟩

theorem repeatedOpen_mono {minOccurs : Nat} {maxOccurs : MaxOccurs} {l m back : Language Event}
    (le : l ≤ m) : repeatedOpen minOccurs maxOccurs l back ≤ repeatedOpen minOccurs maxOccurs m back := by
  rintro w ⟨k, min, ⟨allowed, word⟩ | ⟨allowed, word⟩⟩
  · exact ⟨k, min, .inl ⟨allowed, pow_le_pow_left' le k word⟩⟩
  · exact ⟨k, min, .inr ⟨allowed, mul_le_mul_left (pow_le_pow_left' le k) back word⟩⟩

section

variable {l back : Language Event}

/-- If coming back to the start reads nothing, or nothing but words of the language, then it lets no
other words in. -/
theorem repeatedOpen_eq_repeated (minOccurs : Nat) (maxOccurs : MaxOccurs)
    (adds_none : back = 1 ∨ back ≤ l) :
    repeatedOpen minOccurs maxOccurs l back = repeated minOccurs maxOccurs l := by
  refine le_antisymm ?_ (repeated_le_repeatedOpen minOccurs maxOccurs l back)
  rintro w ⟨k, min, ⟨allowed, word⟩ | ⟨allowed, word⟩⟩
  · exact ⟨k, min, allowed, word⟩
  rcases adds_none with rfl | le
  · refine ⟨k, min, ?_, by rwa [mul_one] at word⟩
    cases maxOccurs with
    | bounded count =>
      change k + 1 ≤ count at allowed
      change k ≤ count
      omega
    | unbounded => trivial
  · refine ⟨k + 1, by omega, allowed, ?_⟩
    rw [pow_succ]
    exact mul_le_mul_right le (l ^ k) word

/-- A copy that only comes back falls away in front of another one. -/
theorem Returns.mul_open_le (ret : Returns l back) (j : Nat) :
    (l + back) * (l ^ j * back) ≤ l ^ (j + 1) * back + l ^ j * back := by
  rw [add_mul, ← mul_assoc, ← pow_succ']
  refine add_le_add_right ?_ _
  cases j with
  | zero => simpa using ret.trans
  | succ j =>
    rw [pow_succ', ← mul_assoc, ← mul_assoc]
    exact mul_le_mul_left (mul_le_mul_left ret.absorb _) _

theorem Returns.mul_pow_le (ret : Returns l back) (j : Nat) :
    (l + back) * l ^ j ≤ l ^ (j + 1) + l ^ j * back := by
  rw [add_mul, ← pow_succ']
  refine add_le_add_right ?_ _
  cases j with
  | zero => simp
  | succ j =>
    rw [pow_succ', ← mul_assoc]
    exact (mul_le_mul_left ret.absorb _).trans (le_mul_of_one_le_right' ret.refl)

theorem Returns.mem_pow_iff (ret : Returns l back) {n : Nat} {w : List Event} :
    w ∈ (l + back) ^ n ↔ ∃ j, j ≤ n ∧ w ∈ l ^ j ∨ j < n ∧ w ∈ l ^ j * back := by
  have kept : l ≤ l + back := le_self_add
  have left : back ≤ l + back := le_add_self
  have one : 1 ≤ l + back := ret.refl.trans left
  constructor
  · intro word
    induction n generalizing w with
    | zero => exact ⟨0, .inl ⟨le_rfl, word⟩⟩
    | succ n ih =>
      rw [pow_succ'] at word
      obtain ⟨u, first, v, rest, rfl⟩ := Language.mem_mul.1 word
      obtain ⟨j, ⟨le, copies⟩ | ⟨lt, copies⟩⟩ := ih rest
      · rcases ret.mul_pow_le j (Language.append_mem_mul first copies) with more | stopped
        · exact ⟨j + 1, .inl ⟨by omega, more⟩⟩
        · exact ⟨j, .inr ⟨by omega, stopped⟩⟩
      · rcases ret.mul_open_le j (Language.append_mem_mul first copies) with more | stopped
        · exact ⟨j + 1, .inr ⟨by omega, more⟩⟩
        · exact ⟨j, .inr ⟨by omega, stopped⟩⟩
  · rintro ⟨j, ⟨le, word⟩ | ⟨lt, word⟩⟩
    · exact (pow_le_pow_left' kept j).trans (pow_le_pow_right' one le) word
    · have longer : (l + back) ^ (j + 1) ≤ (l + back) ^ n := pow_le_pow_right' one lt
      rw [pow_succ] at longer
      exact longer (mul_le_mul' (pow_le_pow_left' kept j) left word)

theorem Returns.mem_kstar_iff (ret : Returns l back) {w : List Event} :
    w ∈ (l + back)∗ ↔ ∃ j, w ∈ l ^ j ∨ w ∈ l ^ j * back := by
  rw [Language.kstar_eq_iSup_pow, Language.mem_iSup]
  constructor
  · rintro ⟨n, word⟩
    obtain ⟨j, ⟨_, copies⟩ | ⟨_, copies⟩⟩ := ret.mem_pow_iff.1 word
    · exact ⟨j, .inl copies⟩
    · exact ⟨j, .inr copies⟩
  · rintro ⟨j, word | word⟩
    · exact ⟨j, ret.mem_pow_iff.2 ⟨j, .inl ⟨le_rfl, word⟩⟩⟩
    · exact ⟨j + 1, ret.mem_pow_iff.2 ⟨j, .inr ⟨Nat.lt_succ_self j, word⟩⟩⟩

theorem Returns.pow_mul_pow_eq (ret : Returns l back) {minOccurs count : Nat}
    (le : minOccurs ≤ count) :
    l ^ minOccurs * (l + back) ^ (count - minOccurs) =
      repeatedOpen minOccurs (.bounded count) l back := by
  ext w
  constructor
  · intro word
    obtain ⟨u, first, v, rest, rfl⟩ := Language.mem_mul.1 word
    obtain ⟨j, ⟨fits, copies⟩ | ⟨fits, copies⟩⟩ := ret.mem_pow_iff.1 rest
    · refine ⟨minOccurs + j, Nat.le_add_right _ _, .inl ⟨?_, ?_⟩⟩
      · change minOccurs + j ≤ count
        omega
      · rw [pow_add]
        exact Language.append_mem_mul first copies
    · refine ⟨minOccurs + j, Nat.le_add_right _ _, .inr ⟨?_, ?_⟩⟩
      · change minOccurs + j + 1 ≤ count
        omega
      · rw [pow_add, mul_assoc]
        exact Language.append_mem_mul first copies
  · rintro ⟨k, min, copies⟩
    obtain ⟨j, rfl⟩ := Nat.exists_eq_add_of_le min
    simp only [pow_add, mul_assoc] at copies
    rcases copies with ⟨allowed, word⟩ | ⟨allowed, word⟩
    · change minOccurs + j ≤ count at allowed
      obtain ⟨u, first, v, rest, rfl⟩ := Language.mem_mul.1 word
      exact Language.append_mem_mul first (ret.mem_pow_iff.2 ⟨j, .inl ⟨by omega, rest⟩⟩)
    · change minOccurs + j + 1 ≤ count at allowed
      obtain ⟨u, first, v, rest, rfl⟩ := Language.mem_mul.1 word
      exact Language.append_mem_mul first (ret.mem_pow_iff.2 ⟨j, .inr ⟨by omega, rest⟩⟩)

theorem Returns.pow_mul_kstar_eq (ret : Returns l back) (minOccurs : Nat) :
    l ^ minOccurs * (l + back)∗ = repeatedOpen minOccurs .unbounded l back := by
  ext w
  constructor
  · intro word
    obtain ⟨u, first, v, rest, rfl⟩ := Language.mem_mul.1 word
    obtain ⟨j, copies | copies⟩ := ret.mem_kstar_iff.1 rest
    · refine ⟨minOccurs + j, Nat.le_add_right _ _, .inl ⟨trivial, ?_⟩⟩
      rw [pow_add]
      exact Language.append_mem_mul first copies
    · refine ⟨minOccurs + j, Nat.le_add_right _ _, .inr ⟨trivial, ?_⟩⟩
      rw [pow_add, mul_assoc]
      exact Language.append_mem_mul first copies
  · rintro ⟨k, min, copies⟩
    obtain ⟨j, rfl⟩ := Nat.exists_eq_add_of_le min
    simp only [pow_add, mul_assoc] at copies
    rcases copies with ⟨_, word⟩ | ⟨_, word⟩ <;>
      obtain ⟨u, first, v, rest, rfl⟩ := Language.mem_mul.1 word
    · exact Language.append_mem_mul first (ret.mem_kstar_iff.2 ⟨j, .inl rest⟩)
    · exact Language.append_mem_mul first (ret.mem_kstar_iff.2 ⟨j, .inr rest⟩)

end

/-- What leads a run through a repetition back to its start. Only a repetition that is one loop adds
to what leads back within its first copy. -/
def repeatedBack (minOccurs : Nat) (maxOccurs : MaxOccurs) (l back : Language Event) :
    Language Event :=
  match minOccurs, maxOccurs with
  | _, .bounded 0 => 1
  | 0, .unbounded => repeatedOpen 0 .unbounded l back
  | _, _ => back

namespace Grammar

/-- The grammar itself if it is alone, else the sequence. -/
def joined : List Grammar → Except Fault Grammar
  | [g] => .ok g
  | parts => sequence parts

theorem WellFormed.joined {g : Grammar} {parts : List Grammar} (wf : ∀ p ∈ parts, p.WellFormed)
    (run : joined parts = .ok g) : g.WellFormed := by
  unfold Grammar.joined at run
  split at run
  · cases run
    exact wf _ List.mem_cons_self
  · exact .sequence wf run

theorem language_joined {g : Grammar} {parts : List Grammar} (wf : ∀ p ∈ parts, p.WellFormed)
    (run : joined parts = .ok g) : g.language = (parts.map language).prod := by
  unfold joined at run
  split at run
  · cases run
    exact List.prod_singleton.symm
  · exact language_sequence wf run

theorem restarts_joined {g p : Grammar} {ps : List Grammar} (wf : ∀ q ∈ p :: ps, q.WellFormed)
    (run : joined (p :: ps) = .ok g) : g.restarts = p.restarts := by
  cases ps with
  | nil =>
    cases run
    rfl
  | cons q qs => exact restarts_sequence wf run

/-- A term repeated within bounds. -/
def repeated (minOccurs : Nat) (maxOccurs : MaxOccurs) (g : Grammar) : Except Fault Grammar :=
  match maxOccurs with
  | .bounded count =>
    if count < minOccurs then .error (.invalidOccurs minOccurs count)
    else if count = 0 then .ok endOnly
    else if count = 1 ∧ minOccurs = 1 then .ok g
    else if Draft.copyLimit < count then .error (.outOfBounds count Draft.copyLimit)
    else joined (List.replicate minOccurs g ++ List.replicate (count - minOccurs) g.escaped)
  | .unbounded =>
    let copies := min (minOccurs + 1) Draft.countLimit
    if Draft.copyLimit < copies then .error (.outOfBounds copies Draft.copyLimit)
    else joined (List.replicate minOccurs g ++ [g.escaped.looped])

/-- The three shapes of a repetition: empty, the term itself, and copies one after the other. -/
theorem repeated_eq_ok {minOccurs : Nat} {maxOccurs : MaxOccurs} {g h : Grammar}
    (run : repeated minOccurs maxOccurs g = .ok h) :
    (maxOccurs = .bounded 0 ∧ minOccurs = 0 ∧ h = endOnly) ∨
      (maxOccurs = .bounded 1 ∧ minOccurs = 1 ∧ h = g) ∨
      (∃ count, maxOccurs = .bounded (count + 1) ∧ minOccurs ≤ count + 1 ∧
        joined (List.replicate minOccurs g ++ List.replicate (count + 1 - minOccurs) g.escaped) =
          .ok h) ∨
      (maxOccurs = .unbounded ∧ joined (List.replicate minOccurs g ++ [g.escaped.looped]) = .ok h) := by
  cases maxOccurs with
  | bounded count =>
    rw [repeated] at run
    split at run
    · cases run
    split at run
    · next zero =>
      cases run
      exact .inl ⟨by rw [zero], by omega, rfl⟩
    split at run
    · next one =>
      cases run
      exact .inr (.inl ⟨by rw [one.1], one.2, rfl⟩)
    split at run
    · cases run
    obtain ⟨count, rfl⟩ := Nat.exists_eq_succ_of_ne_zero (by assumption)
    exact .inr (.inr (.inl ⟨count, rfl, by omega, run⟩))
  | unbounded =>
    rw [repeated] at run
    split at run
    · cases run
    exact .inr (.inr (.inr ⟨rfl, run⟩))

section

variable {minOccurs : Nat} {maxOccurs : MaxOccurs} {g h : Grammar}

theorem WellFormed.bounded_parts (wf : g.WellFormed) {m n : Nat} :
    ∀ p ∈ List.replicate m g ++ List.replicate n g.escaped, p.WellFormed := by
  intro p mem
  rcases List.mem_append.1 mem with copy | optional
  · exact List.eq_of_mem_replicate copy ▸ wf
  · exact List.eq_of_mem_replicate optional ▸ wf.escaped

theorem WellFormed.unbounded_parts (wf : g.WellFormed) {m : Nat} :
    ∀ p ∈ List.replicate m g ++ [g.escaped.looped], p.WellFormed := by
  intro p mem
  rcases List.mem_append.1 mem with copy | loop
  · exact List.eq_of_mem_replicate copy ▸ wf
  · exact List.mem_singleton.1 loop ▸ wf.escaped.looped

theorem WellFormed.repeated (wf : g.WellFormed) (run : repeated minOccurs maxOccurs g = .ok h) :
    h.WellFormed := by
  rcases repeated_eq_ok run with
    ⟨_, _, rfl⟩ | ⟨_, _, rfl⟩ | ⟨_, _, _, joined⟩ | ⟨_, joined⟩
  · exact wellFormed_endOnly
  · exact wf
  · exact .joined wf.bounded_parts joined
  · exact .joined wf.unbounded_parts joined

theorem language_endOnly : endOnly.language = 1 := by
  rw [language_sequence (by simp) sequence_nil]
  exact List.prod_nil

/-- The exact language of a repetition. -/
theorem language_repeated (wf : g.WellFormed) (run : repeated minOccurs maxOccurs g = .ok h) :
    h.language = repeatedOpen minOccurs maxOccurs g.language g.restarts := by
  have optional : g.escaped.language = g.language + g.restarts := language_escaped wf.nonempty
  rcases repeated_eq_ok run with
    ⟨rfl, rfl, rfl⟩ | ⟨rfl, rfl, rfl⟩ | ⟨count, rfl, le, joined⟩ | ⟨rfl, joined⟩
  · rw [language_endOnly, ← g.returns.pow_mul_pow_eq le_rfl, pow_zero, one_mul, Nat.sub_self,
      pow_zero]
  · rw [← h.returns.pow_mul_pow_eq le_rfl, pow_one, Nat.sub_self, pow_zero, mul_one]
  · rw [language_joined wf.bounded_parts joined, ← g.returns.pow_mul_pow_eq le]
    simp only [List.map_append, List.map_replicate, List.prod_append, List.prod_replicate, optional]
  · rw [language_joined wf.unbounded_parts joined, ← g.returns.pow_mul_kstar_eq]
    simp only [List.map_append, List.map_replicate, List.prod_append, List.prod_replicate,
      List.map_singleton, List.prod_singleton, language_looped (endsAt_escaped wf.nonempty), optional]

theorem restarts_repeated (wf : g.WellFormed) (run : repeated minOccurs maxOccurs g = .ok h) :
    h.restarts = repeatedBack minOccurs maxOccurs g.language g.restarts := by
  rcases repeated_eq_ok run with
    ⟨rfl, rfl, rfl⟩ | ⟨rfl, rfl, rfl⟩ | ⟨count, rfl, le, joined⟩ | ⟨rfl, joined⟩
  · exact restarts_endOnly
  · rfl
  · cases minOccurs with
    | zero =>
      rw [List.replicate_zero, List.nil_append, Nat.sub_zero, List.replicate_succ] at joined
      rw [restarts_joined (wf.bounded_parts (m := 0) (n := count + 1)) joined, restarts_escaped]
      rfl
    | succ m =>
      have parts := wf.bounded_parts (m := m + 1) (n := count + 1 - (m + 1))
      rw [List.replicate_succ, List.cons_append] at joined parts
      rw [restarts_joined parts joined]
      rfl
  · cases minOccurs with
    | zero =>
      have parts := wf.unbounded_parts (m := 0)
      rw [List.replicate_zero, List.nil_append] at joined parts
      rw [restarts_joined parts joined, restarts_looped (endsAt_escaped wf.nonempty),
        language_escaped wf.nonempty]
      change _ = repeatedOpen 0 .unbounded g.language g.restarts
      rw [← g.returns.pow_mul_kstar_eq, pow_zero, one_mul]
    | succ m =>
      have parts := wf.unbounded_parts (m := m + 1)
      rw [List.replicate_succ, List.cons_append] at joined parts
      rw [restarts_joined parts joined]
      rfl

theorem openLanguage_eq (nonempty : 0 < g.size) : g.openLanguage = g.language + g.restarts :=
  language_withEscape nonempty

theorem Reads.eq_or_leads {i j : Nat} {w : List Event} (run : Reads g i w j) :
    (i = j ∧ w = []) ∨ ∃ k, g.Leads k j := by
  induction run with
  | refl i => exact .inl ⟨rfl, rfl⟩
  | @step i k j u v first _ ih =>
    rcases ih with ⟨rfl, _⟩ | leads
    · obtain ⟨r, rule, p, mem, target, _⟩ := first
      exact .inr ⟨i, r, p, rule, mem, target⟩
    · exact .inr leads

theorem restarts_eq_one (never : ∀ i, ¬ g.Leads i 0) : g.restarts = 1 := by
  refine le_antisymm ?_ one_le_restarts
  intro w back
  rcases Reads.eq_or_leads back with ⟨_, rfl⟩ | ⟨i, leads⟩
  · exact Language.nil_mem_one
  · exact absurd leads (never i)

/-- So many words of the grammar as there must be, and then such as a run also reads that may stop
where it starts. -/
theorem language_repeated_bounded (wf : g.WellFormed) {count : Nat}
    (run : repeated minOccurs (.bounded count) g = .ok h) :
    minOccurs ≤ count ∧
      h.language = g.language ^ minOccurs * g.openLanguage ^ (count - minOccurs) := by
  have le : minOccurs ≤ count := by
    by_contra crossed
    rw [repeated, if_pos (by omega)] at run
    cases run
  rw [language_repeated wf run, openLanguage_eq wf.nonempty, g.returns.pow_mul_pow_eq le]
  exact ⟨le, rfl⟩

theorem language_repeated_unbounded (wf : g.WellFormed)
    (run : repeated minOccurs .unbounded g = .ok h) :
    h.language = g.language ^ minOccurs * g.openLanguage∗ := by
  rw [language_repeated wf run, openLanguage_eq wf.nonempty, g.returns.pow_mul_kstar_eq]

/-- If no run comes back to the start, or it may stop there, just so many words of the grammar are
accepted as the bounds allow. -/
theorem language_repeated_eq (wf : g.WellFormed) (run : repeated minOccurs maxOccurs g = .ok h)
    (free : (∀ i, ¬ g.Leads i 0) ∨ g.EndsAt 0) :
    h.language = ExiSchema.repeated minOccurs maxOccurs g.language := by
  rw [language_repeated wf run]
  exact repeatedOpen_eq_repeated minOccurs maxOccurs
    (free.imp restarts_eq_one restarts_le_language)

end

/-- Grammars put together as a group says. The sizes of the parts have to fit in 32 bits where they
are counted. -/
def grouped : Compositor → List Grammar → Except Fault Grammar
  | .sequence, parts => joined parts
  | .choice, parts =>
    if parts.all (·.size < sizeLimit) then choice parts else .error .memoryAllocation
  | .all, parts =>
    if parts.all (·.size < sizeLimit) then rounds parts else .error .memoryAllocation

end Grammar

end ExiSchema
