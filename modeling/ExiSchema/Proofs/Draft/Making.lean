import ExiSchema.Proofs.Draft.Store
import ExiSchema.Proofs.Traversal

/-!
Actions that build something, against what they build. The tables change on the way, so what is to
be built is a function of row numbers, and these are ones that fit the tables in the end.
-/

set_option autoImplicit false

namespace ExiSchema

/-- The action only adds to the draft. Its result stands for what `built` gives, and it fails with
the fault of `built` or for lack of memory. -/
def Makes {α β : Type} (action : Drafting α) (d : Draft) (stands : Draft → α → β → Prop)
    (built : Naming → Except Fault β) : Prop :=
  d.store.Sound →
    Yields action d
      (fun a d' => d.Adds d' ∧
        ∃ b, stands d' a b ∧ ∀ ν, d'.uris.Fits ν → built ν = .ok b)
      (fun f d' => d.Adds d' ∧
        (f = .memoryAllocation ∨ ∀ ν, d'.uris.Fits ν → built ν = .error f))

namespace Draft

/-- The number is that of the grammar. -/
def Holds (d : Draft) (id : GrammarId) (g : Grammar) : Prop := d.grammars[id]? = some g

def HoldsAll (d : Draft) : List GrammarId → List Grammar → Prop := List.Forall₂ d.Holds

theorem Adds.holds {d d' : Draft} (adds : d.Adds d') {id : GrammarId} {g : Grammar}
    (here : d.Holds id g) : d'.Holds id g := adds.grammars here

theorem Adds.holdsAll {d d' : Draft} (adds : d.Adds d') {ids : List GrammarId} {gs : List Grammar}
    (here : d.HoldsAll ids gs) : d'.HoldsAll ids gs :=
  List.Forall₂.imp (fun _ _ => adds.holds) here

theorem Holds.mem {d : Draft} {id : GrammarId} {g : Grammar} (here : d.Holds id g) :
    g ∈ d.grammars := Array.mem_of_getElem? here

theorem Holds.read {d : Draft} {id : GrammarId} {g : Grammar} (here : d.Holds id g) :
    d.read id = .ok g := read_eq_ok_iff.2 here

theorem Holds.grammar_eq_ok {d : Draft} {id : GrammarId} {g : Grammar} (here : d.Holds id g) :
    grammar id d = .ok g d := by
  rw [grammar_eq, here.read]
  rfl

theorem mapM_read_eq_ok_iff {d : Draft} {ids : List GrammarId} {gs : List Grammar} :
    ids.mapM d.read = .ok gs ↔ d.HoldsAll ids gs := by
  simp only [except_mapM_eq_ok, read_eq_ok_iff]
  exact Iff.rfl

theorem HoldsAll.read {d : Draft} {ids : List GrammarId} {gs : List Grammar}
    (here : d.HoldsAll ids gs) : ids.mapM d.read = .ok gs := mapM_read_eq_ok_iff.2 here

theorem HoldsAll.grammars_eq_ok {d : Draft} {ids : List GrammarId} {gs : List Grammar}
    (here : d.HoldsAll ids gs) : (ids.mapM grammar) d = .ok gs d := by
  rw [mapM_ofExcept (fun id => grammar_eq id d), here.read]
  rfl

theorem mem_of_mapM_read {d : Draft} {ids : List GrammarId} {gs : List Grammar}
    (run : ids.mapM d.read = .ok gs) : ∀ g ∈ gs, g ∈ d.grammars := by
  intro g mem
  obtain ⟨_, _, here⟩ := exists_of_mem_forall₂ (List.Forall₂.flip (mapM_read_eq_ok_iff.1 run)) mem
  exact Holds.mem here

end Draft

namespace Makes

variable {α β γ δ : Type} {d : Draft} {action : Drafting α} {next : α → Drafting γ}
  {R : Draft → α → β → Prop} {built : Naming → Except Fault β}
  {S : Draft → γ → δ → Prop} {m : Naming → β → Except Fault δ}

theorem adds (spec : Makes action d R built) (sound : d.store.Sound) :
    Yields action d (fun _ d' => d.Adds d') fun _ d' => d.Adds d' :=
  (spec sound).mono (fun _ _ good => good.1) fun _ _ bad => bad.1

theorem of_sound (spec : d.store.Sound → Makes action d R built) :
    Makes action d R built := fun sound => spec sound sound

theorem pure {a : α} {b : β} (here : R d a b) :
    Makes (pure a) d R fun _ => .ok b :=
  fun _ => yields_pure ⟨.refl d, b, here, fun _ _ => rfl⟩

theorem throw {fault : Fault} : Makes (throw fault) d R fun _ => .error fault :=
  fun _ => yields_throw ⟨.refl d, .inr fun _ _ => rfl⟩

theorem of_eq {action' : Drafting α} (spec : Makes action' d R built)
    (same : action d = action' d) : Makes action d R built := by
  intro sound
  have := spec sound
  rwa [Yields, same]

/-- The same built in another way, as far as the numbers fit the tables. -/
theorem congr {built' : Naming → Except Fault β} (spec : Makes action d R built)
    (same : ∀ ν, d.uris.Fits ν → built' ν = built ν) : Makes action d R built' := by
  intro sound
  refine (spec sound).mono ?_ ?_
  · rintro a d' ⟨adds, b, here, eq⟩
    exact ⟨adds, b, here, fun ν fits => (same ν (fits.of_extends adds.extends)).trans (eq ν fits)⟩
  · rintro f d' ⟨adds, cause⟩
    refine ⟨adds, cause.imp_right fun eq ν fits => ?_⟩
    exact (same ν (fits.of_extends adds.extends)).trans (eq ν fits)

/-- The same against something else that succeeds alike, and fails alike but for lack of memory. -/
theorem relax {r r' : Except Fault β} (spec : Makes action d R fun _ => r)
    (good : ∀ b, r = .ok b → r' = .ok b)
    (bad : ∀ f, r = .error f → f = .memoryAllocation ∨ r' = .error f) :
    Makes action d R fun _ => r' := by
  intro sound
  refine (spec sound).mono ?_ ?_
  · rintro a d' ⟨adds, b, here, eq⟩
    exact ⟨adds, b, here, fun ν fits => good b (eq ν fits)⟩
  · rintro f d' ⟨adds, cause | eq⟩
    · exact ⟨adds, .inl cause⟩
    · exact ⟨adds, (bad f (eq _ (UriTable.fits_naming _))).imp_right fun eq _ _ => eq⟩

theorem mono {R' : Draft → α → β → Prop} (spec : Makes action d R built)
    (weaker : ∀ d' a b, d.Adds d' → R d' a b → R' d' a b) :
    Makes action d R' built := by
  intro sound
  refine (spec sound).mono_ok ?_
  rintro a d' ⟨adds, b, here, eq⟩
  exact ⟨adds, b, weaker d' a b adds here, eq⟩

theorem bind (first : Makes action d R built)
    (rest : ∀ a b d', d.Adds d' → R d' a b →
      Makes (next a) d' S fun ν => m ν b) :
    Makes (action >>= next) d S fun ν => built ν >>= m ν := by
  intro sound
  refine ((first sound).mono_fails ?_).bind ?_
  · rintro f d' ⟨adds, cause⟩
    refine ⟨adds, cause.imp_right fun eq ν fits => ?_⟩
    simp only [eq ν fits]
    rfl
  · rintro a d' ⟨adds, b, here, eq⟩
    have before {ν : Naming} {d'' : Draft} (later : d'.Adds d'') (fits : d''.uris.Fits ν) :
        (built ν >>= m ν) = m ν b := by
      rw [eq ν (fits.of_extends later.extends)]
      rfl
    refine (rest a b d' adds here (adds.grows.sound sound)).mono ?_ ?_
    · rintro c d'' ⟨later, e, there, eq'⟩
      exact ⟨adds.trans later, e, there, fun ν fits => (before later fits).trans (eq' ν fits)⟩
    · rintro f d'' ⟨later, cause⟩
      exact ⟨adds.trans later, cause.imp_right fun eq' ν fits =>
        (before later fits).trans (eq' ν fits)⟩

/-- The same with a first action that only looks. -/
theorem bind_reads {r : Except Fault α} {m : Naming → α → Except Fault δ}
    (reads : action d = Draft.ofExcept r d)
    (rest : ∀ a, r = .ok a → Makes (next a) d S fun ν => m ν a) :
    Makes (action >>= next) d S fun ν => r >>= m ν := by
  intro sound
  have run : (action >>= next) d = (Draft.ofExcept r >>= next) d := by
    simp only [Bind.bind, EStateM.bind, reads]
  rw [Yields, run]
  cases r with
  | ok a => exact rest a rfl sound
  | error fault => exact ⟨.refl d, .inr fun _ _ => rfl⟩

theorem of_holds {id : GrammarId} {g : Grammar} {m : Naming → Grammar → Except Fault β}
    (spec : Makes action d R fun ν => d.read id >>= m ν) (here : d.Holds id g) :
    Makes action d R fun ν => m ν g := by
  rwa [here.read] at spec

theorem of_holdsAll {ids : List GrammarId} {gs : List Grammar}
    {m : Naming → List Grammar → Except Fault β}
    (spec : Makes action d R fun ν => ids.mapM d.read >>= m ν) (here : d.HoldsAll ids gs) :
    Makes action d R fun ν => m ν gs := by
  rwa [here.read] at spec

/-- One after the other; there are as many results as there were things to do. -/
theorem mapM {ι : Type} {f : ι → Drafting α} {built : Naming → ι → Except Fault β}
    (kept : ∀ d d' a b, d.Adds d' → R d a b → R d' a b) (xs : List ι)
    (each : ∀ x ∈ xs, ∀ d', d.Adds d' → Makes (f x) d' R fun ν => built ν x) :
    Makes (xs.mapM f) d
      (fun d' as bs => List.Forall₂ (R d') as bs ∧ as.length = xs.length)
      fun ν => xs.mapM (built ν) := by
  induction xs generalizing d with
  | nil => exact pure ⟨.nil, rfl⟩
  | cons x xs ih =>
    simp only [List.mapM_cons]
    refine (each x List.mem_cons_self d (.refl d)).bind fun a b d' adds here => ?_
    refine (ih fun x' mem d'' later =>
      each x' (List.mem_cons_of_mem _ mem) d'' (adds.trans later)).bind fun as bs d'' later all => ?_
    exact pure ⟨.cons (kept _ _ a b later here) all.1, congrArg (· + 1) all.2⟩

end Makes

end ExiSchema
