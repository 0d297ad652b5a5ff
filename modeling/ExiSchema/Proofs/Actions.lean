import ExiSchema.Fault

/-!
What comes of an action that may fail and keeps what it has done by then. A specification says what
holds of the result and the state left in either case; those of parts are put together along the
action.
-/

set_option autoImplicit false

namespace ExiSchema

variable {σ α β : Type}

/-- Run from `s`, the action ends with `ok` or fails with `fails`. -/
def Yields (action : EStateM Fault σ α) (s : σ) (ok : α → σ → Prop) (fails : Fault → σ → Prop) :
    Prop :=
  match action s with
  | .ok a s => ok a s
  | .error fault s => fails fault s

section

variable {action : EStateM Fault σ α} {next : α → EStateM Fault σ β} {s : σ} {ok : α → σ → Prop}
  {fails : Fault → σ → Prop}

theorem Yields.ok_of_eq {a : α} {s' : σ} (spec : Yields action s ok fails)
    (run : action s = .ok a s') : ok a s' := by
  rwa [Yields, run] at spec

theorem Yields.fails_of_eq {fault : Fault} {s' : σ} (spec : Yields action s ok fails)
    (run : action s = .error fault s') : fails fault s' := by
  rwa [Yields, run] at spec

theorem yields_iff :
    Yields action s ok fails ↔
      (∀ a s', action s = .ok a s' → ok a s') ∧ ∀ f s', action s = .error f s' → fails f s' := by
  constructor
  · exact fun spec => ⟨fun _ _ => spec.ok_of_eq, fun _ _ => spec.fails_of_eq⟩
  · rintro ⟨good, bad⟩
    unfold Yields
    split
    · exact good _ _ ‹_›
    · exact bad _ _ ‹_›

instance [∀ a t, Decidable (ok a t)] [∀ f t, Decidable (fails f t)] :
    Decidable (Yields action s ok fails) :=
  match h : action s with
  | .ok a t => decidable_of_iff (ok a t) (by rw [Yields, h])
  | .error f t => decidable_of_iff (fails f t) (by rw [Yields, h])

theorem exists_of_yields (spec : Yields action s ok fun _ _ => False) :
    ∃ a t, action s = .ok a t ∧ ok a t := by
  unfold Yields at spec
  split at spec
  · exact ⟨_, _, ‹_›, spec⟩
  · cases spec

theorem Yields.mono {ok' : α → σ → Prop} {fails' : Fault → σ → Prop} (spec : Yields action s ok fails)
    (good : ∀ a s', ok a s' → ok' a s') (bad : ∀ f s', fails f s' → fails' f s') :
    Yields action s ok' fails' := by
  rw [yields_iff] at spec ⊢
  exact ⟨fun a s' run => good a s' (spec.1 a s' run), fun f s' run => bad f s' (spec.2 f s' run)⟩

theorem Yields.mono_ok {ok' : α → σ → Prop} (spec : Yields action s ok fails)
    (good : ∀ a s', ok a s' → ok' a s') : Yields action s ok' fails :=
  spec.mono good fun _ _ bad => bad

theorem Yields.mono_fails {fails' : Fault → σ → Prop} (spec : Yields action s ok fails)
    (bad : ∀ f s', fails f s' → fails' f s') : Yields action s ok fails' :=
  spec.mono (fun _ _ good => good) bad

theorem Yields.and {ok' : α → σ → Prop} {fails' : Fault → σ → Prop} (spec : Yields action s ok fails)
    (spec' : Yields action s ok' fails') :
    Yields action s (fun a s' => ok a s' ∧ ok' a s') fun f s' => fails f s' ∧ fails' f s' := by
  rw [yields_iff] at spec spec' ⊢
  exact ⟨fun a s' run => ⟨spec.1 a s' run, spec'.1 a s' run⟩,
    fun f s' run => ⟨spec.2 f s' run, spec'.2 f s' run⟩⟩

/-- What comes of success comes of the run. -/
theorem Yields.with_run (spec : Yields action s ok fails) :
    Yields action s (fun a s' => action s = .ok a s' ∧ ok a s') fails :=
  yields_iff.2 ⟨fun _ _ run => ⟨run, spec.ok_of_eq run⟩, fun _ _ run => spec.fails_of_eq run⟩

theorem yields_pure {a : α} (good : ok a s) : Yields (pure a) s ok fails := good

theorem yields_throw {fault : Fault} (bad : fails fault s) :
    Yields (throw fault : EStateM Fault σ α) s ok fails := bad

theorem yields_get_bind {next : σ → EStateM Fault σ α} (rest : Yields (next s) s ok fails) :
    Yields (get >>= next) s ok fails := rest

theorem yields_bind_iff {ok : β → σ → Prop} :
    Yields (action >>= next) s ok fails ↔
      Yields action s (fun a s' => Yields (next a) s' ok fails) fails := by
  simp only [Yields, bind, EStateM.bind]
  cases action s <;> rfl

theorem Yields.bind {M : α → σ → Prop} {ok : β → σ → Prop} (first : Yields action s M fails)
    (rest : ∀ a s', M a s' → Yields (next a) s' ok fails) : Yields (action >>= next) s ok fails :=
  yields_bind_iff.2 (first.mono_ok rest)

/-- A first action that only looks. -/
theorem yields_reads_bind {a : α} {ok : β → σ → Prop} (reads : action s = .ok a s)
    (rest : Yields (next a) s ok fails) : Yields (action >>= next) s ok fails :=
  yields_bind_iff.2 (by rwa [Yields, reads])

theorem yields_trivial : Yields action s (fun _ _ => True) fun _ _ => True :=
  yields_iff.2 ⟨fun _ _ _ => trivial, fun _ _ _ => trivial⟩

/-- Only what comes of success is kept. -/
theorem Yields.of_ok (spec : Yields action s ok fails) : Yields action s ok fun _ _ => True :=
  spec.mono_fails fun _ _ _ => trivial

theorem Yields.bind_ok {M : α → σ → Prop} {ok : β → σ → Prop} (first : Yields action s M fails)
    (rest : ∀ a s', M a s' → Yields (next a) s' ok fun _ _ => True) :
    Yields (action >>= next) s ok fun _ _ => True := first.of_ok.bind rest

theorem yields_bind_any {ok : β → σ → Prop}
    (rest : ∀ a s', Yields (next a) s' ok fun _ _ => True) :
    Yields (action >>= next) s ok fun _ _ => True := yields_trivial.bind fun a s' _ => rest a s'

theorem bind_eq_ok {b : β} {s' : σ} :
    (action >>= next) s = .ok b s' ↔ ∃ a t, action s = .ok a t ∧ next a t = .ok b s' := by
  simp only [bind, EStateM.bind]
  cases action s <;> simp [and_assoc]

end

theorem except_bind_eq_ok {x : Except Fault α} {f : α → Except Fault β} {b : β} :
    (x >>= f) = .ok b ↔ ∃ a, x = .ok a ∧ f a = .ok b := by
  cases x <;> simp [bind, Except.bind]

theorem except_bind_eq_error {ε : Type} {x : Except ε α} {next : α → Except ε β} {f : ε}
    (run : (x >>= next) = .error f) : x = .error f ∨ ∃ a, x = .ok a ∧ next a = .error f := by
  cases x with
  | error fault =>
    cases run
    exact .inl rfl
  | ok a => exact .inr ⟨a, rfl, run⟩

theorem except_map_eq_ok {f : α → β} {x : Except Fault α} {b : β} :
    x.map f = .ok b ↔ ∃ a, x = .ok a ∧ f a = b := by
  cases x <;> simp [Except.map]

/-- One element after the other; `inv` relates the elements done by now to their results. -/
theorem yields_mapM {f : α → EStateM Fault σ β} {s : σ} {E : Fault → σ → Prop}
    (inv : List α → List β → σ → Prop) (xs : List α) (start : inv [] [] s)
    (step : ∀ done x rest results s', xs = done ++ x :: rest → inv done results s' →
      Yields (f x) s' (fun b s'' => inv (done ++ [x]) (results ++ [b]) s'') E) :
    Yields (xs.mapM f) s (inv xs) E := by
  have main (rest : List α) : ∀ done results s', xs = done ++ rest → inv done results s' →
      Yields (rest.mapM f) s' (fun bs s'' => inv xs (results ++ bs) s'') E := by
    induction rest with
    | nil =>
      intro done results s' split here
      rw [List.mapM_nil]
      rw [List.append_nil] at split
      exact yields_pure (by rwa [List.append_nil, split])
    | cons x rest ih =>
      intro done results s' split here
      rw [List.mapM_cons]
      refine (step done x rest results s' split here).bind fun b s'' more => ?_
      have later := ih (done ++ [x]) (results ++ [b]) s'' (by simp [split]) more
      refine later.bind fun bs s₃ all => yields_pure ?_
      rwa [List.append_assoc] at all
  exact main xs [] [] s rfl start

end ExiSchema
