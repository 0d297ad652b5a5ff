import ExiSchema.Proofs.Grammar.Sequence

/-!
Sequences made in one pass, and made of two parts at a time. One pass leads on only the part that
came last: those before it have no ends any more. So it makes the same grammar as putting the parts
together two by two, and it does not matter from which side.
-/

set_option autoImplicit false

namespace ExiSchema

theorem Rule.hasEnd_redirect (r : Rule) (j : Nat) : (r.redirect (.epsilon j)).hasEnd = false := by
  simpa [led] using r.hasEnd_led 0 (some j)

theorem Rule.redirect_of_closed {r : Rule} (closed : r.hasEnd = false) (jump : Production) :
    r.redirect jump = r := by
  have kept : ∀ p ∈ r.productions, (if p.isTerminal then jump else p) = p := by
    intro p mem
    simp [List.any_eq_false.1 closed p mem]
  simp [redirect, List.map_congr_left kept]

theorem Rule.shifted_redirect (r : Rule) (offset next : Nat) :
    (r.redirect (.epsilon next)).shifted offset =
      (r.shifted offset).redirect (.epsilon (next + offset)) := by
  have each (p : Production) :
      (if p.isTerminal then Production.epsilon next else p).shifted offset =
        if p.isTerminal then Production.epsilon (next + offset) else p.shifted offset := by
    split <;> rfl
  simp [redirect, shifted, Function.comp_def, each]

theorem Rule.shifted_shifted (r : Rule) (m n : Nat) :
    (r.shifted m).shifted n = r.shifted (m + n) := by
  simp [shifted, Production.shifted, Function.comp_def, Nat.add_assoc]

namespace Grammar

/-- The rules from `tail` on are led on to what is put behind all of them. -/
def redirectFrom (tail : Nat) (rules : Array Rule) : Array Rule :=
  rules.mapIdx fun i r => if i < tail then r else r.redirect (.epsilon rules.size)

/-- Appends parts in one pass. Each append changes only the part that came last, from `tail` on. -/
def appendInTurn (rules : Array Rule) (tail : Nat) : List Grammar → Array Rule
  | [] => rules
  | g :: gs => appendInTurn (redirectFrom tail rules ++ g.placed rules.size) rules.size gs

/-- Two grammars, one behind the other. -/
def followedBy (g h : Grammar) : Grammar := ⟨redirectFrom 0 g.rules ++ h.placed g.size⟩

@[simp]
theorem size_redirectFrom (tail : Nat) (rules : Array Rule) :
    (redirectFrom tail rules).size = rules.size := by
  simp [redirectFrom]

@[simp]
theorem size_followedBy (g h : Grammar) : (g.followedBy h).size = g.size + h.size := by
  change (redirectFrom 0 g.rules ++ h.placed g.size).size = _
  rw [Array.size_append, size_redirectFrom, size_placed]
  rfl

theorem getElem?_redirectFrom (tail : Nat) (rules : Array Rule) (i : Nat) :
    (redirectFrom tail rules)[i]? =
      rules[i]?.map fun r => if i < tail then r else r.redirect (.epsilon rules.size) := by
  simp [redirectFrom]

theorem redirectFrom_append (rules : Array Rule) (g : Grammar) :
    redirectFrom rules.size (rules ++ g.placed rules.size) =
      rules ++ g.placedTo rules.size (rules.size + g.size) := by
  apply Array.ext_getElem?
  intro i
  rw [getElem?_redirectFrom]
  by_cases old : i < rules.size
  · simp [Array.getElem?_append_left old, old]
  · rw [Array.getElem?_append_right (by omega), Array.getElem?_append_right (by omega)]
    simp [old, placed, placedTo, size, Function.comp_def]

theorem eq_appendInTurn_of_appendSequence {rules out : Array Rule} {g : Grammar}
    {gs : List Grammar} (run : appendSequence rules (g :: gs) = .ok out) :
    out = appendInTurn (rules ++ g.placed rules.size) rules.size gs := by
  induction gs generalizing rules g with
  | nil =>
    rw [appendSequence] at run
    split at run
    · cases run
      rfl
    · cases run
  | cons g' gs ih =>
    rw [appendSequence] at run
    split at run
    · have later := ih run
      rw [Array.size_append, size_placedTo] at later
      rw [later, appendInTurn, redirectFrom_append, Array.size_append, size_placed]
    · cases run

/-- A sequence is made by one pass over its parts. -/
theorem eq_appendInTurn_of_sequence {g h : Grammar} {gs : List Grammar}
    (run : sequence (g :: gs) = .ok h) : h = ⟨appendInTurn g.rules 0 gs⟩ := by
  have built := eq_appendInTurn_of_appendSequence (appendSequence_of_sequence run)
  rw [Array.empty_append] at built
  refine congrArg Grammar.mk (built.trans ?_)
  simp [placed]

/-- No rule before `tail` ends the element. -/
def ClosedBefore (tail : Nat) (rules : Array Rule) : Prop :=
  ∀ i r, i < tail → rules[i]? = some r → r.hasEnd = false

theorem ClosedBefore.redirectFrom_eq {tail : Nat} {rules : Array Rule}
    (closed : ClosedBefore tail rules) : redirectFrom tail rules = redirectFrom 0 rules := by
  apply Array.ext_getElem?
  intro i
  rw [getElem?_redirectFrom, getElem?_redirectFrom]
  cases rule : rules[i]? with
  | none => rfl
  | some r =>
    by_cases before : i < tail
    · simp [before, Rule.redirect_of_closed (closed i r before rule)]
    · simp [before]

/-- After an append no part but the new one has an end. -/
theorem closedBefore_append (rules more : Array Rule) :
    ClosedBefore rules.size (redirectFrom 0 rules ++ more) := by
  intro i r lt rule
  rw [Array.getElem?_append_left (by simpa using lt), getElem?_redirectFrom] at rule
  obtain ⟨s, _, rfl⟩ := Option.map_eq_some_iff.1 rule
  exact Rule.hasEnd_redirect s rules.size

/-- One pass over the parts makes what putting them together two by two makes. -/
theorem appendInTurn_eq_foldl {rules : Array Rule} {tail : Nat} (closed : ClosedBefore tail rules)
    (gs : List Grammar) : ⟨appendInTurn rules tail gs⟩ = gs.foldl followedBy ⟨rules⟩ := by
  induction gs generalizing rules tail with
  | nil => rfl
  | cons g gs ih =>
    rw [appendInTurn, closed.redirectFrom_eq]
    exact ih (closedBefore_append rules (g.placed rules.size))

theorem sequence_eq_foldl {g h : Grammar} {gs : List Grammar} (run : sequence (g :: gs) = .ok h) :
    h = gs.foldl followedBy g := by
  rw [eq_appendInTurn_of_sequence run]
  apply appendInTurn_eq_foldl
  intro i r lt
  omega

theorem rule?_followedBy (g h : Grammar) (i : Nat) :
    (g.followedBy h).rule? i =
      if i < g.size then (g.rule? i).map (·.redirect (.epsilon g.size))
      else (h.rule? (i - g.size)).map (·.shifted g.size) := by
  change (redirectFrom 0 g.rules ++ h.placed g.size)[i]? = _
  rw [Array.getElem?_append, size_redirectFrom, getElem?_redirectFrom]
  simp only [Nat.not_lt_zero, if_false, placed, Array.getElem?_map]
  rfl

theorem ext_rule? {g h : Grammar} (same : ∀ i, g.rule? i = h.rule? i) : g = h := by
  cases g
  cases h
  exact congrArg Grammar.mk (Array.ext_getElem? same)

/-- Three grammars one behind the other are the same grammar, whichever two are put together first. -/
theorem followedBy_assoc (a b c : Grammar) :
    (a.followedBy b).followedBy c = a.followedBy (b.followedBy c) := by
  apply ext_rule?
  intro i
  simp only [rule?_followedBy, size_followedBy]
  by_cases first : i < a.size
  · have lt : i < a.size + b.size := by omega
    cases a.rule? i <;> simp [first, lt, Rule.redirect_of_closed, Rule.hasEnd_redirect]
  · by_cases second : i - a.size < b.size
    · have lt : i < a.size + b.size := by omega
      simp [first, second, lt, Function.comp_def, Rule.shifted_redirect, Nat.add_comm]
    · have ge : ¬ i < a.size + b.size := by omega
      have last : i - a.size - b.size = i - (a.size + b.size) := by omega
      simp [first, second, ge, last, Function.comp_def, Rule.shifted_shifted, Nat.add_comm]

end Grammar

end ExiSchema
