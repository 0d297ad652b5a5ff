import ExiSchema.Proofs.Grammar.Derived

/-!
No grammar of a compilation has a rule too many: a run comes to every rule, and from every rule it
comes to an end. Constructions take ends away only where they put a step in their place, to a rule
from which a run still comes to an end.
-/

set_option autoImplicit false

namespace ExiSchema.Grammar

variable {g h : Grammar}

theorem leads_iff {i j : Nat} : g.Leads i j ↔ ∃ w, Step g i w j := by
  constructor
  · rintro ⟨r, p, rule, mem, target⟩
    exact ⟨p.word, r, rule, p, mem, target, rfl⟩
  · rintro ⟨_, r, rule, p, mem, target, _⟩
    exact ⟨r, p, rule, mem, target⟩

theorem reflTransGen_leads_iff {i j : Nat} :
    Relation.ReflTransGen g.Leads i j ↔ ∃ w, Reads g i w j := by
  constructor
  · intro path
    induction path with
    | refl => exact ⟨[], .refl i⟩
    | tail _ last ih =>
      obtain ⟨u, run⟩ := ih
      obtain ⟨v, step⟩ := leads_iff.1 last
      exact ⟨u ++ v, run.trans (.single step)⟩
  · rintro ⟨w, run⟩
    induction run with
    | refl _ => exact .refl
    | step first _ ih => exact .head (leads_iff.2 ⟨_, first⟩) ih

/-- Some run from the rule comes to an end. -/
def Ends (g : Grammar) (i : Nat) : Prop := ∃ w, AcceptsFrom g i w

theorem Ends.of_reads {i j : Nat} {w : List Event} (run : Reads g i w j) (ends : g.Ends j) :
    g.Ends i := by
  obtain ⟨v, rest⟩ := ends
  exact ⟨w ++ v, .ofReads run rest⟩

theorem Ends.of_endsAt {i : Nat} (ends : g.EndsAt i) : g.Ends i := ⟨[], .ofEndsAt ends⟩

theorem ends_iff {i : Nat} : g.Ends i ↔ ∃ j w, Reads g i w j ∧ g.EndsAt j := by
  simp only [Ends, acceptsFrom_iff_reads]
  exact exists_comm

theorem trim_iff : g.Trim ↔ ∀ i, i < g.size → (∃ w, Reads g 0 w i) ∧ g.Ends i := by
  have productive (i : Nat) :
      (∃ j r, Relation.ReflTransGen g.Leads i j ∧ g.rule? j = some r ∧ r.hasEnd = true) ↔
        g.Ends i := by
    simp only [ends_iff, reflTransGen_leads_iff]
    constructor
    · rintro ⟨j, r, ⟨w, run⟩, rule, ends⟩
      exact ⟨j, w, run, r, rule, ends⟩
    · rintro ⟨j, w, run, r, rule, ends⟩
      exact ⟨j, r, ⟨w, run⟩, rule, ends⟩
  constructor
  · exact fun trim i lt =>
      ⟨reflTransGen_leads_iff.1 (trim.reached i lt), (productive i).1 (trim.productive i lt)⟩
  · exact fun all => ⟨fun i lt => reflTransGen_leads_iff.2 (all i lt).1,
      fun i lt => (productive i).2 (all i lt).2⟩

/-- Nothing is lost where steps are kept and from each former end a run still comes to an end. -/
theorem Trim.mono (trim : g.Trim) (size : h.size = g.size)
    (steps : ∀ i u j, Step g i u j → Step h i u j) (ends : ∀ i, g.EndsAt i → h.Ends i) :
    h.Trim := by
  rw [trim_iff] at trim ⊢
  intro i lt
  obtain ⟨⟨w, run⟩, alive⟩ := trim i (size ▸ lt)
  obtain ⟨j, v, rest, last⟩ := ends_iff.1 alive
  exact ⟨⟨w, run.mono steps⟩, .of_reads (rest.mono steps) (ends j last)⟩

/-- A block of a larger grammar, of which the start is reached and the way out leads to an end. -/
theorem Block.live {offset start i k : Nat} {next : Option Nat} {w : List Event}
    (block : Block h g offset next) (trim : g.Trim) (enter : Reads h start w offset)
    (exit : ∀ m, next = some m → h.Ends m) (lt : k < g.size) (at_ : i = offset + k) :
    (∃ w, Reads h start w i) ∧ h.Ends i := by
  subst at_
  obtain ⟨⟨u, run⟩, alive⟩ := trim_iff.1 trim k lt
  obtain ⟨j, v, rest, last⟩ := ends_iff.1 alive
  refine ⟨⟨w ++ u, enter.trans (block.reads run)⟩, .of_reads (block.reads rest) ?_⟩
  cases next with
  | none => exact .of_endsAt ((block.endsAt_iff last.lt_size).2 ⟨rfl, last⟩)
  | some m =>
    have leave := (block.step_iff last.lt_size).2 (.inr ⟨rfl, rfl, last⟩)
    exact .of_reads (.single leave) (exit m rfl)

/-- Each rule behind the start rule belongs to a part that the start rule jumps to. -/
theorem exists_block_at {rules : Array Rule} {parts : List Grammar} {i : Nat} (next : Option Nat)
    (le : rules.size ≤ i) (lt : i < rules.size + totalSize parts) :
    ∃ g ∈ parts, ∃ j k, Production.epsilon j ∈ jumpsFrom rules.size parts ∧
      Block ⟨lay rules (parts.map (·, next))⟩ g j next ∧ k < g.size ∧ i = j + k := by
  induction parts generalizing rules with
  | nil =>
    rw [totalSize_nil] at lt
    omega
  | cons g gs ih =>
    rw [totalSize_cons] at lt
    by_cases inside : i < rules.size + g.size
    · exact ⟨g, List.mem_cons_self, rules.size, i - rules.size, List.mem_cons_self,
        block_lay_cons rules g next _, by omega, by omega⟩
    · have size : (rules ++ g.placedAs rules.size next).size = rules.size + g.size := by
        rw [Array.size_append, size_placedAs]
      obtain ⟨g', mem, j, k, jump, block, lt', at_⟩ :=
        @ih (rules ++ g.placedAs rules.size next) (by omega) (by omega)
      rw [size] at jump
      exact ⟨g', List.mem_cons_of_mem g mem, j, k, List.mem_cons_of_mem _ jump, block, lt', at_⟩

/-- A start rule that jumps to every part, whose ends are kept or lead to a live rule. -/
theorem Trim.lay {start : List Production} {parts : List Grammar} {next : Option Nat}
    (trim : ∀ p ∈ parts, p.Trim) (jumps : ∀ p ∈ jumpsFrom 1 parts, p ∈ start)
    (alive : Ends ⟨lay #[⟨0, start⟩] (parts.map (·, next))⟩ 0)
    (exit : ∀ m, next = some m → Ends ⟨Grammar.lay #[⟨0, start⟩] (parts.map (·, next))⟩ m) :
    Trim ⟨Grammar.lay #[⟨0, start⟩] (parts.map (·, next))⟩ := by
  refine trim_iff.2 fun i lt => ?_
  cases i with
  | zero => exact ⟨⟨[], .refl 0⟩, alive⟩
  | succ n =>
    have size : (Grammar.lay #[⟨0, start⟩] (parts.map (·, next))).size = 1 + totalSize parts := by
      rw [size_lay, map_fst_blocks]
      rfl
    change n + 1 < (Grammar.lay _ _).size at lt
    obtain ⟨g, mem, j, k, jump, block, inside, at_⟩ :=
      @exists_block_at #[⟨0, start⟩] parts (n + 1) next (Nat.le_add_left 1 n) (size ▸ lt)
    exact block.live (trim g mem) (.single (step_lay_zero_iff.2 ⟨_, jumps _ jump, rfl, rfl⟩)) exit
      inside at_

theorem trim_endOnly : endOnly.Trim := by
  refine trim_iff.2 fun i lt => ?_
  obtain rfl : i = 0 := Nat.lt_one_iff.1 lt
  exact ⟨⟨[], .refl 0⟩, .of_endsAt ⟨_, rfl, rfl⟩⟩

theorem Trim.choice {parts : List Grammar} (wf : ∀ p ∈ parts, p.WellFormed)
    (trim : ∀ p ∈ parts, p.Trim) (run : choice parts = .ok g) : g.Trim := by
  cases parts with
  | nil =>
    cases run
    exact trim_endOnly
  | cons p ps =>
    rw [eq_lay_of_choice run]
    refine .lay trim (fun _ mem => mem) ?_ (by simp)
    obtain ⟨j, jump, block⟩ :=
      exists_jump_of_mem #[⟨0, jumpsFrom 1 (p :: ps)⟩] none (List.mem_cons_self (a := p) (l := ps))
    have enter := (@step_lay_zero_iff _ ((p :: ps).map (·, none)) _ _).2 ⟨_, jump, rfl, rfl⟩
    have live := block.live (trim p List.mem_cons_self) (.single enter) (by simp)
      (wf p List.mem_cons_self).nonempty rfl
    exact .of_reads (.single enter) live.2

theorem Trim.rounds {parts : List Grammar} (trim : ∀ p ∈ parts, p.Trim)
    (run : rounds parts = .ok g) : g.Trim := by
  rw [eq_lay_of_rounds run]
  have alive : Ends ⟨Grammar.lay #[⟨0, .endElement :: jumpsFrom 1 parts⟩]
      (parts.map (·, some 0))⟩ 0 := .of_endsAt (endsAt_lay_zero_iff.2 List.mem_cons_self)
  refine .lay trim (fun _ mem => List.mem_cons_of_mem _ mem) alive ?_
  rintro m ⟨⟩
  exact alive

/-- In a sequence that stands behind other rules, every rule is reached from its first one. -/
theorem live_lay_sequenceBlocks {rules : Array Rule} {p : Grammar} {ps : List Grammar}
    (wf : ∀ q ∈ p :: ps, q.WellFormed) (trim : ∀ q ∈ p :: ps, q.Trim) {i : Nat}
    (le : rules.size ≤ i) (lt : i < rules.size + totalSize (p :: ps)) :
    (∃ w, Reads ⟨lay rules (sequenceBlocks rules.size (p :: ps))⟩ rules.size w i) ∧
      Ends ⟨lay rules (sequenceBlocks rules.size (p :: ps))⟩ i := by
  have first : p.Trim := trim p List.mem_cons_self
  induction ps generalizing rules p i with
  | nil =>
    rw [totalSize_cons, totalSize_nil] at lt
    have block := block_lay_cons rules p none []
    exact block.live (k := i - rules.size) first (.refl _) (by simp) (by omega) (by omega)
  | cons q qs ih =>
    rw [totalSize_cons] at lt
    have block := block_lay_cons rules p (some (rules.size + p.size))
      (sequenceBlocks (rules.size + p.size) (q :: qs))
    have size : (rules ++ p.placedAs rules.size (some (rules.size + p.size))).size =
        rules.size + p.size := by
      rw [Array.size_append, size_placedAs]
    have more : totalSize (q :: qs) = q.size + totalSize qs := totalSize_cons q qs
    have behind (k : Nat) (le : rules.size + p.size ≤ k)
        (lt : k < rules.size + p.size + totalSize (q :: qs)) := by
      have later := @ih (rules ++ p.placedAs rules.size (some (rules.size + p.size))) q
        (fun q' mem => wf q' (List.mem_cons_of_mem p mem))
        (fun q' mem => trim q' (List.mem_cons_of_mem p mem)) k (by omega) (by omega)
        (trim q (by simp))
      rw [size] at later
      exact later
    have nonempty := (wf q (by simp)).nonempty
    have exit : ∀ m, some (rules.size + p.size) = some m →
        Ends ⟨lay rules (sequenceBlocks rules.size (p :: q :: qs))⟩ m := by
      rintro m ⟨⟩
      exact (behind _ le_rfl (by omega)).2
    by_cases inside : i < rules.size + p.size
    · exact block.live (k := i - rules.size) first (.refl _) exit (by omega) (by omega)
    · obtain ⟨⟨v, onward⟩, alive⟩ := behind i (Nat.not_lt.1 inside) (by omega)
      obtain ⟨_, w, reads, last⟩ := ends_iff.1 (trim_iff.1 first 0 (wf p List.mem_cons_self).nonempty).2
      have leave := (block.step_iff last.lt_size).2 (.inr ⟨rfl, rfl, last⟩)
      exact ⟨⟨_, (block.reads reads).trans ((Reads.single leave).trans onward)⟩, alive⟩

theorem Trim.sequence {parts : List Grammar} (wf : ∀ p ∈ parts, p.WellFormed)
    (trim : ∀ p ∈ parts, p.Trim) (run : sequence parts = .ok g) : g.Trim := by
  cases parts with
  | nil =>
    cases run
    exact trim_endOnly
  | cons p ps =>
    refine trim_iff.2 fun i lt => ?_
    have size := size_sequence run
    rw [eq_lay_of_sequence run]
    exact @live_lay_sequenceBlocks #[] p ps wf trim i (Nat.zero_le i)
      ((size ▸ lt).trans_eq (Nat.zero_add _).symm)

theorem Trim.withEscape (trim : g.Trim) : g.withEscape.Trim :=
  trim.mono (size_withEscape g) (fun _ _ _ => step_withEscape_iff.2)
    fun _ ends => .of_endsAt (endsAt_withEscape_iff.2 (.inl ends))

/-- The start has to be an end of its own, since all other ends lead back to it. -/
theorem Trim.looped (trim : g.Trim) (ends : g.EndsAt 0) : g.looped.Trim := by
  have stop : g.looped.Ends 0 := .of_endsAt (endsAt_looped_iff.2 ⟨rfl, ends⟩)
  refine trim.mono (size_looped g) (fun _ _ _ step => step_looped_iff.2 (.inl step)) fun i last => ?_
  by_cases start : i = 0
  · exact start ▸ stop
  · exact .of_reads (.single (step_looped_iff.2 (.inr ⟨start, rfl, rfl, last⟩))) stop

/-- More productions of a rule keep what it had. -/
theorem Trim.of_more (trim : g.Trim) (size : h.size = g.size)
    (more : ∀ i r, g.rule? i = some r →
      ∃ s, h.rule? i = some s ∧ ∀ p ∈ r.productions, p ∈ s.productions) : h.Trim := by
  refine trim.mono size ?_ ?_
  · rintro i u j ⟨r, rule, p, mem, target, word⟩
    obtain ⟨s, rule', kept⟩ := more i r rule
    exact ⟨s, rule', p, kept p mem, target, word⟩
  · rintro i ⟨r, rule, last⟩
    obtain ⟨s, rule', kept⟩ := more i r rule
    exact .of_endsAt ⟨s, rule', Rule.hasEnd_iff.2 (kept _ (Rule.hasEnd_iff.1 last))⟩

theorem Trim.withStartEvents (trim : g.Trim) (events : List Event) :
    (g.withStartEvents events).Trim := by
  refine trim.of_more (size_withStartEvents g events) fun i r rule => ?_
  by_cases start : i = 0
  · subst start
    exact ⟨_, by rw [Grammar.withStartEvents, rule?_modifyStart_zero, rule]; rfl,
      fun p mem => List.mem_append_left _ mem⟩
  · exact ⟨r, (rule?_modifyStart_of_ne _ start).trans rule, fun _ mem => mem⟩

theorem Trim.withText (trim : g.Trim) : g.withText.Trim := by
  refine trim.of_more (size_withText g) fun i r rule => ?_
  refine ⟨r.add ⟨.charactersUntyped, some r.id⟩, ?_, fun p mem => List.mem_append_left _ mem⟩
  rw [rule?, Grammar.withText, Array.getElem?_map]
  exact congrArg _ rule

theorem trim_oneOf {events : List Event} (some : events ≠ []) : (oneOf events).Trim := by
  obtain ⟨e, mem⟩ := List.exists_mem_of_ne_nil events some
  have step : Step (oneOf events) 0 _ 1 := step_oneOf_iff.2 ⟨rfl, rfl, e, mem, rfl⟩
  have last : (oneOf events).Ends 1 := .of_endsAt ⟨_, rfl, rfl⟩
  refine trim_iff.2 fun i lt => ?_
  match i, lt with
  | 0, _ => exact ⟨⟨[], .refl 0⟩, .of_reads (.single step) last⟩
  | 1, _ => exact ⟨⟨_, .single step⟩, last⟩

theorem trim_anything : anything.Trim := by
  have step : Step anything 0 [.charactersUntyped] 1 :=
    ⟨_, rfl, ⟨.charactersUntyped, some 1⟩, by decide, rfl, rfl⟩
  refine trim_iff.2 fun i lt => ?_
  match i, lt with
  | 0, _ => exact ⟨⟨[], .refl 0⟩, .of_endsAt ⟨_, rfl, rfl⟩⟩
  | 1, _ => exact ⟨⟨_, .single step⟩, .of_endsAt ⟨_, rfl, rfl⟩⟩

theorem trim_anyAttributes : anyAttributes.Trim := by
  refine trim_iff.2 fun i lt => ?_
  obtain rfl : i = 0 := Nat.lt_one_iff.1 lt
  exact ⟨⟨[], .refl 0⟩, .of_endsAt ⟨_, rfl, rfl⟩⟩

theorem Derives.trim {t : UriTable} {known : Grammar → Prop}
    (wf : ∀ g, known g → g.WellFormed) (trim : ∀ g, known g → g.Trim) (derived : Derives t known g) :
    g.Trim := by
  induction derived with
  | known here => exact trim _ here
  | endOnly => exact trim_endOnly
  | anything => exact trim_anything
  | anyAttributes => exact trim_anyAttributes
  | oneOf some _ => exact trim_oneOf some
  | sequence derived run ih => exact .sequence (fun p mem => (derived p mem).wellFormed wf) ih run
  | choice derived run ih => exact .choice (fun p mem => (derived p mem).wellFormed wf) ih run
  | rounds _ run ih => exact .rounds ih run
  | withEscape _ ih => exact ih.withEscape
  | looped _ ends ih => exact ih.looped ends
  | withStartEvents _ _ ih => exact ih.withStartEvents _
  | withText _ ih => exact ih.withText
  | renumber derived ih => rwa [(derived.wellFormed wf).renumber_eq]

end ExiSchema.Grammar
