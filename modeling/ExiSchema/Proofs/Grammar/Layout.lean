import ExiSchema.Proofs.Grammar.Blocks

/-!
Blocks laid out one behind the other. Sequences, choices and all groups differ only in where the
ends of their blocks lead; here is what they have in common.
-/

set_option autoImplicit false

namespace ExiSchema

/-- A step that leads below `bound`, or ends the element. -/
def Production.Fits (p : Production) (bound : Nat) : Prop :=
  (∀ j, p.target = some j → j < bound) ∧ (p.target = none ↔ p.event = .endElement)

@[simp]
theorem Production.fits_endElement (bound : Nat) : endElement.Fits bound := by
  simp [Fits, endElement]

@[simp]
theorem Production.fits_some {e : Event} {j bound : Nat} :
    (Production.mk e (some j)).Fits bound ↔ j < bound ∧ e ≠ .endElement := by
  simp [Fits]

theorem Production.Fits.shifted {p : Production} {n offset bound : Nat} (fits : p.Fits n)
    (le : offset + n ≤ bound) : (p.shifted offset).Fits bound := by
  constructor
  · intro j target
    obtain ⟨k, before, rfl⟩ := Option.map_eq_some_iff.1 target
    have := fits.1 k before
    omega
  · simpa [Production.shifted] using fits.2

/-- A rule at place `i` with steps below `bound`. -/
structure Rule.Stands (r : Rule) (i bound : Nat) : Prop where
  numbered : r.id = i
  fits : ∀ p ∈ r.productions, p.Fits bound

theorem Rule.target_of_mem_led {r : Rule} {offset j : Nat} {next : Option Nat} {q : Production}
    (mem : q ∈ (r.led offset next).productions) (target : q.target = some j) :
    (∃ p ∈ r.productions, ∃ k, p.target = some k ∧ j = offset + k) ∨ next = some j := by
  obtain ⟨p, inner, rfl⟩ := mem_led_iff.1 mem
  have shifted (target : (p.shifted offset).target = some j) :
      ∃ p ∈ r.productions, ∃ k, p.target = some k ∧ j = offset + k := by
    obtain ⟨k, before, rfl⟩ := Option.map_eq_some_iff.1 target
    exact ⟨p, inner, k, before, Nat.add_comm k offset⟩
  cases next with
  | none => exact .inl (shifted target)
  | some m =>
    by_cases terminal : p.isTerminal = true
    · simp only [terminal, if_true] at target
      exact .inr target
    · simp only [terminal, Bool.false_eq_true, if_false] at target
      exact .inl (shifted target)

theorem Rule.Stands.led {r : Rule} {i n bound offset : Nat} {next : Option Nat}
    (stands : r.Stands i n) (fits : offset + n ≤ bound) (exits : ∀ m, next = some m → m < bound) :
    (r.led offset next).Stands (offset + i) bound := by
  constructor
  · rw [Rule.id_led, stands.numbered, Nat.add_comm]
  · intro q mem
    obtain ⟨p, inner, rfl⟩ := Rule.mem_led_iff.1 mem
    have shifted := (stands.fits p inner).shifted fits
    cases next with
    | none => exact shifted
    | some m =>
      by_cases terminal : p.isTerminal = true
      · simp only [terminal, if_true]
        exact Production.fits_some.2 ⟨exits m rfl, by decide⟩
      · simpa only [terminal, Bool.false_eq_true, if_false] using shifted

namespace Grammar

def RulesStand (rules : Array Rule) (bound : Nat) : Prop :=
  ∀ (i : Nat) (r : Rule), rules[i]? = some r → r.Stands i bound

theorem wellFormed_iff {g : Grammar} :
    g.WellFormed ↔ 0 < g.size ∧ RulesStand g.rules g.size := by
  constructor
  · intro wf
    exact ⟨wf.nonempty, fun i r rule => ⟨wf.numbered i r rule, fun p mem =>
      ⟨fun j => wf.targets i r p j rule mem, wf.ends i r p rule mem⟩⟩⟩
  · rintro ⟨nonempty, stands⟩
    exact ⟨nonempty, fun i r rule => (stands i r rule).numbered,
      fun i r p j rule mem => ((stands i r rule).fits p mem).1 j,
      fun i r p rule mem => ((stands i r rule).fits p mem).2⟩

theorem rulesStand_empty (bound : Nat) : RulesStand #[] bound := by
  intro i r rule
  simp at rule

theorem RulesStand.push {rules : Array Rule} {bound : Nat} {r : Rule}
    (stands : RulesStand rules bound) (last : r.Stands rules.size bound) :
    RulesStand (rules.push r) bound := by
  intro i s rule
  rw [Array.getElem?_push] at rule
  split at rule
  · next here =>
    cases rule
    exact here ▸ last
  · exact stands i s rule

theorem RulesStand.append {rules : Array Rule} {bound : Nat} {g : Grammar} {next : Option Nat}
    (stands : RulesStand rules bound) (wf : g.WellFormed) (fits : rules.size + g.size ≤ bound)
    (exits : ∀ m, next = some m → m < bound) :
    RulesStand (rules ++ g.placedAs rules.size next) bound := by
  intro i r rule
  by_cases old : i < rules.size
  · rw [Array.getElem?_append_left old] at rule
    exact stands i r rule
  · rw [Array.getElem?_append_right (by omega), placedAs, Array.getElem?_map] at rule
    obtain ⟨s, inner, rfl⟩ := Option.map_eq_some_iff.1 rule
    have led := ((wellFormed_iff.1 wf).2 _ s inner).led fits exits
    rwa [Nat.add_sub_cancel' (by omega)] at led

/-- Puts blocks behind the rules that are there, each with the rule that its ends lead on to. -/
def lay (rules : Array Rule) : List (Grammar × Option Nat) → Array Rule
  | [] => rules
  | (g, next) :: blocks => lay (rules ++ g.placedAs rules.size next) blocks

def totalSize (parts : List Grammar) : Nat := (parts.map size).sum

@[simp]
theorem totalSize_nil : totalSize [] = 0 := rfl

@[simp]
theorem totalSize_cons (g : Grammar) (gs : List Grammar) :
    totalSize (g :: gs) = g.size + totalSize gs := List.sum_cons

theorem totalSize_replicate (n : Nat) (g : Grammar) :
    totalSize (List.replicate n g) = n * g.size := by
  rw [totalSize, List.map_replicate, List.sum_replicate, smul_eq_mul]

theorem totalSize_dropLast_le (parts : List Grammar) : totalSize parts.dropLast ≤ totalSize parts :=
  ((List.dropLast_sublist parts).map size).sum_le_sum fun _ _ => Nat.zero_le _

theorem size_lay (rules : Array Rule) (blocks : List (Grammar × Option Nat)) :
    (lay rules blocks).size = rules.size + totalSize (blocks.map Prod.fst) := by
  induction blocks generalizing rules with
  | nil => rfl
  | cons block blocks ih =>
    obtain ⟨g, next⟩ := block
    rw [lay, ih, Array.size_append, size_placedAs, List.map_cons, totalSize_cons, Nat.add_assoc]

theorem getElem?_lay_of_lt {rules : Array Rule} {i : Nat} (blocks : List (Grammar × Option Nat))
    (lt : i < rules.size) : (lay rules blocks)[i]? = rules[i]? := by
  induction blocks generalizing rules with
  | nil => rfl
  | cons block blocks ih =>
    obtain ⟨g, next⟩ := block
    rw [lay, ih (by rw [Array.size_append]; omega), Array.getElem?_append_left lt]

theorem block_lay_cons (rules : Array Rule) (g : Grammar) (next : Option Nat)
    (blocks : List (Grammar × Option Nat)) :
    Block ⟨lay rules ((g, next) :: blocks)⟩ g rules.size next := by
  intro i r rule
  have lt := lt_size_of_rule? rule
  have inside : rules.size + i < (rules ++ g.placedAs rules.size next).size := by
    rw [Array.size_append, size_placedAs]
    omega
  change (lay (rules ++ g.placedAs rules.size next) blocks)[rules.size + i]? = _
  rw [getElem?_lay_of_lt blocks inside, Array.getElem?_append_right (by omega),
    Nat.add_sub_cancel_left, placedAs, Array.getElem?_map]
  change (g.rule? i).map _ = _
  rw [rule, Option.map_some]

theorem RulesStand.lay {rules : Array Rule} {bound : Nat} {blocks : List (Grammar × Option Nat)}
    (stands : RulesStand rules bound) (wf : ∀ b ∈ blocks, b.1.WellFormed)
    (exits : ∀ b ∈ blocks, ∀ m, b.2 = some m → m < bound)
    (fits : rules.size + totalSize (blocks.map Prod.fst) ≤ bound) :
    RulesStand (lay rules blocks) bound := by
  induction blocks generalizing rules with
  | nil => exact stands
  | cons block blocks ih =>
    obtain ⟨g, next⟩ := block
    simp only [List.map_cons, totalSize_cons] at fits
    have first : g.WellFormed := wf (g, next) List.mem_cons_self
    have more := stands.append first (by omega) (exits (g, next) List.mem_cons_self)
    refine ih more (fun b mem => wf b (List.mem_cons_of_mem _ mem))
      (fun b mem => exits b (List.mem_cons_of_mem _ mem)) ?_
    rw [Array.size_append, size_placedAs]
    omega

/-- No step from behind a bound leads in front of it, if the blocks behind it are led on behind it. -/
theorem Step.le_lay {rules : Array Rule} {blocks : List (Grammar × Option Nat)} {n i j : Nat}
    {u : List Event} (bound : n ≤ rules.size)
    (old : ∀ i r, n ≤ i → rules[i]? = some r → ∀ p ∈ r.productions, ∀ j, p.target = some j → n ≤ j)
    (exits : ∀ b ∈ blocks, ∀ m, b.2 = some m → n ≤ m)
    (le : n ≤ i) (step : Step ⟨lay rules blocks⟩ i u j) : n ≤ j := by
  induction blocks generalizing rules with
  | nil =>
    obtain ⟨r, rule, p, mem, target, _⟩ := step
    exact old i r le rule p mem j target
  | cons block blocks ih =>
    obtain ⟨g, next⟩ := block
    refine @ih (rules ++ g.placedAs rules.size next) ?_ ?_
      (fun b mem => exits b (List.mem_cons_of_mem _ mem)) step
    · rw [Array.size_append]
      omega
    · intro i r le rule p mem j target
      by_cases lt : i < rules.size
      · rw [Array.getElem?_append_left lt] at rule
        exact old i r le rule p mem j target
      · rw [Array.getElem?_append_right (by omega), placedAs, Array.getElem?_map] at rule
        obtain ⟨s, _, rfl⟩ := Option.map_eq_some_iff.1 rule
        rcases Rule.target_of_mem_led mem target with ⟨_, _, k, _, rfl⟩ | exit
        · omega
        · exact exits _ List.mem_cons_self j exit

end Grammar

end ExiSchema
