import ExiSchema.Proofs.Draft.Chaining
import ExiSchema.Proofs.Draft.Registry

/-!
When a particle is refused, and how large it becomes. The bounds are looked at before anything is
added, so a refusal changes nothing; a particle that is not refused has one copy of its term after the
other, and fails only where numbers run out.
-/

set_option autoImplicit false

namespace ExiSchema

/-- The number of copies of a term that are written out. One that may come again and again is written
out once more than the term must come. -/
def MaxOccurs.copies (minOccurs : Nat) : MaxOccurs → Nat
  | .bounded count => count
  | .unbounded => min (minOccurs + 1) Draft.countLimit

/-- The number of rules of a repeated term with so many rules. -/
def MaxOccurs.rules (minOccurs size : Nat) : MaxOccurs → Nat
  | .bounded 0 => 1
  | .bounded count => count * size
  | .unbounded => (minOccurs + 1) * size

namespace Draft

variable {d d' : Draft} {id term : GrammarId} {ids : List GrammarId} {g t : Grammar}
  {parts : List Grammar} {minOccurs m n k size : Nat} {maxOccurs : MaxOccurs}

/-- Why a particle is refused. Of several causes the first one counts: an unknown term, bounds that
cross, too many copies. Copies are not counted if there are none, or if the term comes just once. -/
inductive Refusal (d : Draft) (minOccurs : Nat) (maxOccurs : MaxOccurs) (term : GrammarId) :
    Fault → Prop where
  | unknown (absent : ¬d.Knows term) : Refusal d minOccurs maxOccurs term (.unknownGrammar term)
  | crossed {count : Nat} (known : d.Knows term) (bounded : maxOccurs = .bounded count)
      (less : count < minOccurs) : Refusal d minOccurs maxOccurs term (.invalidOccurs minOccurs count)
  | tooMany (known : d.Knows term) (ordered : maxOccurs.allows minOccurs)
      (some : maxOccurs ≠ .bounded 0) (repeats : ¬(minOccurs = 1 ∧ maxOccurs = .bounded 1))
      (many : copyLimit < maxOccurs.copies minOccurs) :
      Refusal d minOccurs maxOccurs term (.outOfBounds (maxOccurs.copies minOccurs) copyLimit)

/-- At most `n` grammars are added, and the result has so many rules. -/
def Lays (action : Drafting GrammarId) (d : Draft) (n size : Nat) : Prop :=
  Yields action d (fun id d' => d.Inserts n d' ∧ ∃ g, d'.Holds id g ∧ g.size = size)
    fun f _ => d.Scarce n size f

theorem Inserts.refl (d : Draft) : d.Inserts 0 d := ⟨.refl d, rfl, Nat.le_refl _⟩

theorem Inserts.mono (inserts : d.Inserts m d') (le : m ≤ n) : d.Inserts n d' :=
  ⟨inserts.stays, inserts.uris, inserts.size.trans (Nat.add_le_add_left le _)⟩

theorem Lays.mono {action : Drafting GrammarId} (lays : Lays action d m size) (le : m ≤ n) :
    Lays action d n size :=
  Yields.mono lays (fun _ _ ⟨inserts, here⟩ => ⟨inserts.mono le, here⟩) fun _ _ scarce =>
    scarce.mono (Nat.add_le_add_left le _) (Nat.le_refl _)

theorem Lays.bind {action : Drafting GrammarId} {next : GrammarId → Drafting GrammarId}
    (first : Lays action d m k) (le : k ≤ size)
    (rest : ∀ id g d', d.Inserts m d' → d'.Holds id g → g.size = k → Lays (next id) d' n size) :
    Lays (action >>= next) d (m + n) size := by
  refine Yields.bind (Yields.mono_fails first fun _ _ scarce => scarce.mono (by omega) le) ?_
  rintro id d' ⟨inserts, g, here, same⟩
  have added := inserts.size
  refine Yields.mono (rest id g d' inserts here same) ?_ fun _ _ scarce =>
    scarce.mono (by omega) (Nat.le_refl _)
  rintro id' d'' ⟨more, built⟩
  exact ⟨inserts.trans more, built⟩

theorem lays_pure (here : d.Holds id g) : Lays (pure id) d 0 g.size :=
  yields_pure ⟨.refl d, g, here, rfl⟩

theorem lays_insert (g : Grammar) : Lays (insert g) d 1 g.size :=
  (yields_insert_inserts g d).mono (fun _ _ ⟨inserts, here⟩ => ⟨inserts, g, here, rfl⟩)
    fun _ _ scarce => scarce.mono (Nat.le_refl _) (Nat.zero_le _)

theorem lays_withEscape (here : d.Holds id g) (nonempty : 0 < g.size) :
    Lays (withEscape id) d 1 g.size := by
  obtain ⟨r, _, started⟩ := startRule_eq (d := d) id nonempty
  refine yields_reads_bind here.grammar_eq_ok (yields_reads_bind started ?_)
  split
  · exact (lays_pure here).mono (Nat.zero_le 1)
  · exact g.size_withEscape ▸ lays_insert g.withEscape

theorem lays_looped (here : d.Holds id g) : Lays (looped id) d 1 g.size :=
  yields_reads_bind here.grammar_eq_ok (g.size_looped ▸ lays_insert g.looped)

/-- Parts of one size, joined: so many times the size. -/
theorem lays_joined (here : d.HoldsAll ids parts) (sizes : ∀ p ∈ parts, p.size = k)
    (some : ids ≠ []) : Lays (joined ids) d 1 (ids.length * k) := by
  have total : Grammar.totalSize parts = ids.length * k := by
    rw [Grammar.totalSize, List.sum_eq_card_nsmul _ k (by simpa using sizes), List.length_map,
      ← here.length_eq, smul_eq_mul]
  cases here with
  | nil => exact absurd rfl some
  | @cons id p ids ps first rest =>
    cases rest with
    | nil =>
      have one : p.size = [id].length * k := by rw [sizes p List.mem_cons_self]; simp
      exact one ▸ (lays_pure first).mono (Nat.zero_le 1)
    | cons second rest =>
      refine (yields_chain_inserts (.cons first (.cons second rest))).mono ?_ ?_
      · rintro id d' ⟨inserts, g, made, there⟩
        exact ⟨inserts, g, there, (Grammar.size_sequence made).trans total⟩
      · rintro f d' scarce
        exact scarce.mono (Nat.le_refl _) (total ▸ Grammar.totalSize_dropLast_le _)

theorem yields_checkCopies_bind {α : Type} {next : Unit → Drafting α} {count : Nat}
    {ok : α → Draft → Prop} {fails : Fault → Draft → Prop} (few : count ≤ copyLimit)
    (rest : Yields (next ()) d ok fails) : Yields (checkCopies count >>= next) d ok fails := by
  rw [checkCopies, if_neg (Nat.not_lt.2 few)]
  exact rest

section

variable (known : d.Knows term) (accepted : ∀ f, ¬d.Refusal minOccurs maxOccurs term f)
include known accepted

theorem allows_of_accepted : maxOccurs.allows minOccurs := by
  cases maxOccurs with
  | bounded count => exact Nat.not_lt.1 fun less => accepted _ (.crossed known rfl less)
  | unbounded => trivial

/-- The counts of an accepted particle are small, also the one that has been increased. -/
theorem copies_le_of_accepted :
    maxOccurs.copies minOccurs ≤ copyLimit ∧ minOccurs ≤ maxOccurs.copies minOccurs ∧
      (maxOccurs = .unbounded → maxOccurs.copies minOccurs = minOccurs + 1) := by
  have ordered := allows_of_accepted known accepted
  have few : maxOccurs.copies minOccurs ≤ copyLimit := by
    by_cases none : maxOccurs = .bounded 0
    · subst none
      exact Nat.zero_le _
    by_cases once : minOccurs = 1 ∧ maxOccurs = .bounded 1
    · obtain ⟨rfl, rfl⟩ := once
      decide
    · exact Nat.not_lt.1 fun many => accepted _ (.tooMany known ordered none once many)
  cases maxOccurs with
  | bounded count => exact ⟨few, ordered, by simp⟩
  | unbounded =>
    simp only [MaxOccurs.copies, copyLimit, countLimit] at few ⊢
    omega

end

theorem MaxOccurs.rules_bounded {count : Nat} (some : count ≠ 0) :
    (MaxOccurs.bounded count).rules minOccurs size = count * size := by
  cases count with
  | zero => exact absurd rfl some
  | succ count => rfl

/-- The copies of a term within bounds, of which the last ones may be left out. -/
theorem lays_bounded {count : Nat} (here : d.Holds term t) (nonempty : 0 < t.size)
    (ordered : minOccurs ≤ count) (some : count ≠ 0) :
    Lays (do
      if minOccurs < count then do
        let optional ← withEscape term
        joined (List.replicate minOccurs term ++ List.replicate (count - minOccurs) optional)
      else joined (List.replicate minOccurs term)) d 3 (count * t.size) := by
  have copies {d' : Draft} {id : GrammarId} {g : Grammar} (there : d'.Holds term t)
      (last : d'.Holds id g) (same : g.size = t.size) :
      Lays (joined (List.replicate minOccurs term ++ List.replicate (count - minOccurs) id)) d' 1
        (count * t.size) := by
    have length : (List.replicate minOccurs term ++ List.replicate (count - minOccurs) id).length =
        count := by
      simp
      omega
    have lays := lays_joined (k := t.size)
      (List.rel_append (holdsAll_replicate there minOccurs) (holdsAll_replicate last (count - minOccurs)))
      (fun p mem => ?_) (List.ne_nil_of_length_pos (length.symm ▸ Nat.pos_of_ne_zero some))
    · rwa [length] at lays
    · rcases List.mem_append.1 mem with required | optional
      · rw [List.eq_of_mem_replicate required]
      · rw [List.eq_of_mem_replicate optional, same]
  split
  · refine ((lays_withEscape here nonempty).bind (n := 1)
      (Nat.le_mul_of_pos_left _ (Nat.pos_of_ne_zero some)) ?_).mono (by omega)
    intro optional g d' inserts last same
    exact copies (inserts.stays _ _ here) last same
  · have lays := copies here here rfl
    rw [show count - minOccurs = 0 by omega, List.replicate_zero, List.append_nil] at lays
    exact lays.mono (by omega)

/-- The copies that there must be, and one that may come again and again. -/
theorem lays_loop (here : d.Holds term t) (nonempty : 0 < t.size) :
    Lays (do
      let optional ← withEscape term
      let loop ← looped optional
      joined (List.replicate minOccurs term ++ [loop])) d 3 ((minOccurs + 1) * t.size) := by
  have le : t.size ≤ (minOccurs + 1) * t.size := Nat.le_mul_of_pos_left _ (Nat.succ_pos _)
  refine (lays_withEscape here nonempty).bind (n := 2) le fun optional g d₁ first there same => ?_
  refine ((lays_looped there).bind (n := 1) (same ▸ le) fun loop h d₂ second around same' => ?_)
  have lays := lays_joined (k := t.size)
    (List.rel_append (holdsAll_replicate ((first.stays.trans second.stays) _ _ here) minOccurs)
      (.cons around .nil)) (fun p mem => ?_) (by simp)
  · rwa [List.length_append, List.length_replicate] at lays
  · rcases List.mem_append.1 mem with required | last
    · rw [List.eq_of_mem_replicate required]
    · rw [List.mem_singleton.1 last, same', same]

/-- A particle that is not refused. -/
theorem lays_particle (here : d.Holds term t) (nonempty : 0 < t.size)
    (accepted : ∀ f, ¬d.Refusal minOccurs maxOccurs term f) :
    Lays (particle minOccurs maxOccurs term) d 3 (maxOccurs.rules minOccurs t.size) := by
  have ordered := allows_of_accepted ⟨t, here⟩ accepted
  have few := (copies_le_of_accepted ⟨t, here⟩ accepted).1
  refine yields_reads_bind here.grammar_eq_ok ?_
  cases maxOccurs with
  | bounded count =>
    dsimp only
    rw [if_neg (Nat.not_lt.2 ordered)]
    split
    · next none =>
      subst none
      exact (lays_insert .endOnly).mono (by omega)
    next some =>
    rw [MaxOccurs.rules_bounded some]
    split
    · next once =>
      rw [once.1, Nat.one_mul]
      exact (lays_pure here).mono (by omega)
    · exact yields_checkCopies_bind few (lays_bounded here nonempty ordered some)
  | unbounded => exact yields_checkCopies_bind few (lays_loop here nonempty)

/-- A refusal comes before anything is added. -/
theorem particle_of_refusal {f : Fault} (refused : d.Refusal minOccurs maxOccurs term f) :
    particle minOccurs maxOccurs term d = .error f d := by
  cases refused with
  | unknown absent =>
    have none : d.grammars[term]? = none :=
      Option.eq_none_iff_forall_ne_some.2 fun g here => absent ⟨g, here⟩
    simp only [particle, bind, EStateM.bind, grammar, none]
  | crossed known bounded less =>
    obtain ⟨t, here⟩ := known
    subst bounded
    simp only [particle, bind, EStateM.bind, here.grammar_eq_ok, if_pos less]
    rfl
  | tooMany known ordered some repeats many =>
    obtain ⟨t, here⟩ := known
    cases maxOccurs with
    | bounded count =>
      have some : count ≠ 0 := fun zero => some (zero ▸ rfl)
      have repeats : ¬(count = 1 ∧ minOccurs = 1) := fun once => repeats ⟨once.2, once.1 ▸ rfl⟩
      have many : copyLimit < count := many
      simp only [particle, bind, EStateM.bind, here.grammar_eq_ok, if_neg (Nat.not_lt.2 ordered),
        if_neg some, if_neg repeats, checkCopies, if_pos many]
      rfl
    | unbounded =>
      have many : copyLimit < min (minOccurs + 1) countLimit := many
      simp only [particle, bind, EStateM.bind, here.grammar_eq_ok, checkCopies, if_pos many]
      rfl

/-- A particle of an unknown term, of bounds that cross or of too many copies fails with the first of
these as its fault, and leaves everything as it was. Any other succeeds unless numbers run out, with a
copy of the rules of the term for each copy of the term; and the counts that it is made with stay far
below those that could overflow. -/
theorem Reachable.particle_contract (reachable : d.Reachable) (minOccurs : Nat)
    (maxOccurs : MaxOccurs) (term : GrammarId) :
    (∀ f, d.Refusal minOccurs maxOccurs term f → particle minOccurs maxOccurs term d = .error f d) ∧
      ((∀ f, ¬d.Refusal minOccurs maxOccurs term f) →
        (maxOccurs.copies minOccurs ≤ copyLimit ∧ minOccurs ≤ maxOccurs.copies minOccurs ∧
          (maxOccurs = .unbounded → maxOccurs.copies minOccurs = minOccurs + 1)) ∧
        ∃ t, d.Holds term t ∧ Yields (particle minOccurs maxOccurs term) d
          (fun id d' => d.Adds d' ∧
            ∃ g, d'.Holds id g ∧ g.size = maxOccurs.rules minOccurs t.size)
          fun f d' => d.Adds d' ∧ d.Scarce 3 (maxOccurs.rules minOccurs t.size) f) := by
  refine ⟨fun f => particle_of_refusal, fun accepted => ?_⟩
  have known : d.Knows term := by
    by_contra absent
    exact accepted _ (.unknown absent)
  refine ⟨copies_le_of_accepted known accepted, ?_⟩
  obtain ⟨t, here⟩ := known
  have nonempty : 0 < t.size := here.start reachable.sound
  refine ⟨t, here, Yields.mono (((makes_particle minOccurs maxOccurs term).adds reachable.sound).and
    (lays_particle here nonempty accepted)) ?_ fun _ _ both => both⟩
  rintro id d' ⟨adds, _, built⟩
  exact ⟨adds, built⟩

theorem particle_contract_texted : texted.Reachable ∧
    particle 2 (.bounded 1) 0 texted = .error (.invalidOccurs 2 1) texted ∧
    particle countLimit .unbounded 0 texted = .error (.outOfBounds countLimit copyLimit) texted ∧
    ∃ id d' g, particle 1 (.bounded 3) 0 texted = .ok id d' ∧ d'.Holds id g ∧ g.size = 6 := by
  have reachable : texted.Reachable := .after (.after (.start {}) _) _
  have known : texted.Knows 0 := ⟨element, holds_texted.1⟩
  refine ⟨reachable, ?_, ?_, ?_⟩
  · exact (reachable.particle_contract 2 (.bounded 1) 0).1 _ (.crossed known rfl (by decide))
  · exact (reachable.particle_contract countLimit .unbounded 0).1 _
      (.tooMany known trivial (by simp) (by simp) (by decide))
  · have accepted : ∀ f, ¬texted.Refusal 1 (.bounded 3) 0 f := by
      rintro _ (absent | ⟨_, bounded, less⟩ | ⟨_, _, _, _, many⟩)
      · exact absent known
      · cases bounded
        omega
      · exact absurd many (by decide)
    obtain ⟨_, t, here, lays⟩ := (reachable.particle_contract 1 (.bounded 3) 0).2 accepted
    cases here.symm.trans holds_texted.1
    obtain ⟨id, d', run, _, g, there, size⟩ := exists_of_yields_isOk lays (by decide +kernel)
    exact ⟨id, d', g, run, there, size⟩

end Draft

end ExiSchema
