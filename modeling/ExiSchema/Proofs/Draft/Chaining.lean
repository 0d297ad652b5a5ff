import ExiSchema.Proofs.Draft.Repeating
import ExiSchema.Proofs.Grammar.Folding

/-!
A sequence of grammars of a draft, put together at once or two at a time. Whatever the order in which
neighbours are joined, the grammar that comes out is the same, rule by rule.
-/

set_option autoImplicit false

namespace ExiSchema.Draft

variable {d d' : Draft} {a b c : GrammarId} {ids : List GrammarId} {g x y z : Grammar}
  {gs parts : List Grammar} {f : Fault}

/-- Grammars joined two at a time, from the left. -/
def chainPairs (first : GrammarId) (rest : List GrammarId) : Drafting GrammarId :=
  rest.foldlM (fun whole part => chain [whole, part]) first

/-- Numbers run out for `n` more grammars, or for so many rules. -/
structure Scarce (d : Draft) (n rules : Nat) (f : Fault) : Prop where
  fault : f = .memoryAllocation
  cause : grammarLimit < d.grammars.size + n ∨ Grammar.sizeLimit ≤ rules

theorem Scarce.mono {m n k l : Nat} (scarce : d'.Scarce m k f)
    (numbers : d'.grammars.size + m ≤ d.grammars.size + n) (rules : k ≤ l) : d.Scarce n l f := by
  refine ⟨scarce.fault, ?_⟩
  have cause := scarce.cause
  omega

theorem Crowded.scarce (crowded : d.Crowded parts f) :
    d.Scarce 1 (Grammar.totalSize parts.dropLast) f := by
  refine ⟨crowded.fault, ?_⟩
  have cause := crowded.cause
  omega

/-- At most `n` grammars are added, and the tables stay as they are. -/
structure Inserts (d : Draft) (n : Nat) (d' : Draft) : Prop where
  stays : d.Stays d'
  uris : d'.uris = d.uris
  size : d'.grammars.size ≤ d.grammars.size + n

theorem Inserts.trans {m n : Nat} {e : Draft} (first : d.Inserts m d') (second : d'.Inserts n e) :
    d.Inserts (m + n) e := by
  refine ⟨first.stays.trans second.stays, second.uris.trans first.uris, ?_⟩
  have := first.size
  have := second.size
  omega

theorem yields_insert_inserts (g : Grammar) (d : Draft) :
    Yields (insert g) d (fun i d' => d.Inserts 1 d' ∧ d'.Holds i g) fun f _ => d.Scarce 1 0 f := by
  have size : Yields (insert g) d (fun _ d' => d'.grammars.size ≤ d.grammars.size + 1)
      fun _ _ => True := by
    unfold Yields insert
    by_cases room : d.grammars.size < grammarLimit <;> simp [room]
  refine ((yields_insert g d).and ((yields_insert_uris g).and size)).mono ?_ ?_
  · rintro i d' ⟨⟨stays, there⟩, uris, size⟩
    exact ⟨⟨stays, uris, size⟩, there⟩
  · rintro f _ ⟨⟨_, fault, full⟩, _⟩
    exact ⟨fault, .inl (by omega)⟩

theorem yields_chain_inserts (here : d.HoldsAll ids parts) :
    Yields (chain ids) d
      (fun i d' => d.Inserts 1 d' ∧ ∃ g, Grammar.sequence parts = .ok g ∧ d'.Holds i g)
      fun f _ => d.Scarce 1 (Grammar.totalSize parts.dropLast) f := by
  refine yields_reads_bind here.grammars_eq_ok ?_
  cases made : Grammar.sequence parts with
  | ok g =>
    refine (yields_insert_inserts g d).mono ?_ ?_
    · rintro i d' ⟨inserts, there⟩
      exact ⟨inserts, g, rfl, there⟩
    · rintro f _ scarce
      exact scarce.mono (Nat.le_refl _) (Nat.zero_le _)
  | error f => exact yields_throw (Crowded.of_sequence made).scarce

/-- The parts become the one grammar that joining them from the left makes. -/
theorem yields_chain_foldl (here : d.HoldsAll (a :: ids) (g :: gs)) :
    Yields (chain (a :: ids)) d
      (fun i d' => d.Inserts 1 d' ∧ d'.Holds i (gs.foldl Grammar.followedBy g))
      fun f _ => d.Scarce 1 (Grammar.totalSize (g :: gs).dropLast) f := by
  refine (yields_chain_inserts here).mono_ok ?_
  rintro i d' ⟨inserts, h, made, there⟩
  exact ⟨inserts, Grammar.sequence_eq_foldl made ▸ there⟩

theorem yields_chain_pair (first : d.Holds a x) (second : d.Holds b y) :
    Yields (chain [a, b]) d (fun i d' => d.Inserts 1 d' ∧ d'.Holds i (x.followedBy y))
      fun f _ => d.Scarce 1 x.size f :=
  yields_chain_foldl (.cons first (.cons second .nil))

theorem totalSize_dropLast_followedBy (g h : Grammar) (gs : List Grammar) :
    Grammar.totalSize (g.followedBy h :: gs).dropLast ≤
      Grammar.totalSize (g :: h :: gs).dropLast := by
  cases gs with
  | nil => simp
  | cons g' gs => simp [Nat.add_assoc]

theorem yields_chainPairs (first : d.Holds a g) (rest : d.HoldsAll ids gs) :
    Yields (chainPairs a ids) d (fun i d' => d'.Holds i (gs.foldl Grammar.followedBy g))
      fun f _ => d.Scarce ids.length (Grammar.totalSize (g :: gs).dropLast) f := by
  unfold chainPairs
  induction ids generalizing d a g gs with
  | nil =>
    cases rest
    exact yields_pure first
  | cons b ids ih =>
    cases rest with
    | @cons _ h _ gs second rest =>
      rw [List.foldlM_cons]
      refine ((yields_chain_pair first second).mono_fails ?_).bind ?_
      · intro f _ scarce
        apply scarce.mono
        · simp
        · simp
      · rintro whole d' ⟨inserts, joined⟩
        have size := inserts.size
        refine (ih joined (inserts.stays.holdsAll rest)).mono_fails ?_
        intro f _ scarce
        apply scarce.mono
        · simp only [List.length_cons]
          omega
        · exact totalSize_dropLast_followedBy g h gs

theorem yields_chain_left (here : d.HoldsAll [a, b, c] [x, y, z]) :
    Yields (do chain [← chain [a, b], c]) d
      (fun i d' => d'.Holds i ((x.followedBy y).followedBy z))
      fun f _ => d.Scarce 2 (x.size + y.size) f := by
  cases here with
  | cons first rest => simpa [chainPairs] using yields_chainPairs first rest

theorem yields_chain_right (here : d.HoldsAll [a, b, c] [x, y, z]) :
    Yields (do chain [a, ← chain [b, c]]) d
      (fun i d' => d'.Holds i (x.followedBy (y.followedBy z)))
      fun f _ => d.Scarce 2 (x.size + y.size) f := by
  cases here with
  | cons first rest =>
    cases rest with
    | cons second last =>
      refine ((yields_chain_foldl (.cons second last)).mono_fails ?_).bind ?_
      · intro f _ scarce
        apply scarce.mono
        · simp
        · simp
      · rintro whole d' ⟨inserts, joined⟩
        have size := inserts.size
        refine (yields_chain_pair (inserts.stays a x first) joined).mono (fun _ _ good => good.2) ?_
        intro f _ scarce
        apply scarce.mono
        · omega
        · omega

theorem holdsAll_texted :
    texted.HoldsAll [0, 1, 1] [element, element.withText, element.withText] :=
  .cons holds_texted.1 (.cons holds_texted.2 (.cons holds_texted.2 .nil))

/-- Joined at once or two at a time from the left, the grammars of a draft make one and the same
grammar, that of the pass that leads on only the part that came last; and of three grammars it does
not matter which two are joined first. Either fails only where numbers run out. -/
theorem chain_agrees_with_pairs (d : Draft) :
    (∀ a ids g gs, d.HoldsAll (a :: ids) (g :: gs) → ∃ h : Grammar,
        h.rules = Grammar.appendInTurn g.rules 0 gs ∧
          Yields (chain (a :: ids)) d (fun i d' => d'.Holds i h)
            (fun f _ => d.Scarce 1 (Grammar.totalSize (g :: gs).dropLast) f) ∧
          Yields (chainPairs a ids) d (fun i d' => d'.Holds i h)
            fun f _ => d.Scarce ids.length (Grammar.totalSize (g :: gs).dropLast) f) ∧
      ∀ a b c x y z, d.HoldsAll [a, b, c] [x, y, z] → ∃ h : Grammar,
        Yields (do chain [← chain [a, b], c]) d (fun i d' => d'.Holds i h)
            (fun f _ => d.Scarce 2 (x.size + y.size) f) ∧
          Yields (do chain [a, ← chain [b, c]]) d (fun i d' => d'.Holds i h)
            fun f _ => d.Scarce 2 (x.size + y.size) f := by
  constructor
  · intro a ids g gs here
    refine ⟨gs.foldl Grammar.followedBy g, ?_, ?_, ?_⟩
    · have closed : Grammar.ClosedBefore 0 g.rules := fun i r lt => absurd lt (Nat.not_lt_zero i)
      exact congrArg Grammar.rules (Grammar.appendInTurn_eq_foldl closed gs).symm
    · exact (yields_chain_foldl here).mono_ok (fun _ _ good => good.2)
    · cases here with
      | cons first rest => exact yields_chainPairs first rest
  · intro a b c x y z here
    refine ⟨(x.followedBy y).followedBy z, yields_chain_left here, ?_⟩
    rw [Grammar.followedBy_assoc]
    exact yields_chain_right here

theorem chain_agrees_with_pairs_texted :
    texted.HoldsAll [0, 1, 1] [element, element.withText, element.withText] ∧
      ∃ h k : Grammar,
        (∃ i d', chain [0, 1, 1] texted = .ok i d' ∧ d'.Holds i h) ∧
          (∃ i d', chainPairs 0 [1, 1] texted = .ok i d' ∧ d'.Holds i h) ∧
          (∃ i d', (do chain [← chain [0, 1], 1] : Drafting GrammarId) texted = .ok i d' ∧
            d'.Holds i k) ∧
          ∃ i d', (do chain [0, ← chain [1, 1]] : Drafting GrammarId) texted = .ok i d' ∧
            d'.Holds i k := by
  obtain ⟨fold, assoc⟩ := chain_agrees_with_pairs texted
  obtain ⟨h, _, atOnce, pairs⟩ := fold _ _ _ _ holdsAll_texted
  obtain ⟨k, left, right⟩ := assoc _ _ _ _ _ _ holdsAll_texted
  refine ⟨holdsAll_texted, h, k, ?_, ?_, ?_, ?_⟩
  · exact exists_of_yields_isOk atOnce (by decide +kernel)
  · exact exists_of_yields_isOk pairs (by decide +kernel)
  · exact exists_of_yields_isOk left (by decide +kernel)
  · exact exists_of_yields_isOk right (by decide +kernel)

end ExiSchema.Draft
