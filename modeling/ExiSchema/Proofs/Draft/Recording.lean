import ExiSchema.Proofs.Draft.Registered

/-!
The walk over a type model whose types have one definition for each name. Nothing is put off, since
no type is used inside itself; so the walk registers exactly what the model mentions, builds every
type that it meets, and fails only for a part that has no grammar, or for lack of memory.
-/

set_option autoImplicit false

namespace ExiSchema

namespace Draft

variable {C : Catalog} {d d' e : Draft}

theorem Recorded.withStack {ms : List Mention} (recorded : d.Recorded C ms) (stack : List GrammarId)
    (active : List QName) : Recorded C { d with stack, active } ms :=
  recorded.keep_quiet (kept_withStack d stack active)

/-- The walk came from one draft to another; `ms` is mentioned by then, and the types are covered. -/
structure Noted (C : Catalog) (d d' : Draft) (ms : List Mention) (ts : List TypeDef) : Prop where
  walked : d.Walked d'
  keeps : d.Keeps d'
  recorded : d'.Recorded C ms
  covers : ∀ t ∈ ts, d'.Covers C t

theorem Noted.trans {ms ms' : List Mention} {ts ts' : List TypeDef} (first : d.Noted C d' ms ts)
    (second : d'.Noted C e ms' ts') : d.Noted C e ms' (ts ++ ts') := by
  refine ⟨first.walked.trans second.walked, first.keeps.trans second.keeps first.walked.active,
    second.recorded, ?_⟩
  intro t mem
  rcases List.mem_append.1 mem with early | late
  · exact (first.covers t early).keep second.keeps.typeIds
  · exact second.covers t late

theorem Noted.withStack {ms : List Mention} {ts : List TypeDef} {stack : List GrammarId}
    (noted : d.Noted C d' ms ts) (more : d.stack <:+ stack) :
    d.Noted C { d' with stack } ms ts :=
  ⟨⟨noted.walked.grows, more, noted.walked.active, noted.walked.options⟩,
    ⟨noted.keeps.size, noted.keeps.typeIds, noted.keeps.claims, noted.keeps.waiting,
      noted.keeps.globals⟩,
    noted.recorded.withStack stack d'.active,
    fun t mem => (noted.covers t mem).keep fun _ _ here => here⟩

/-- Why a walk may fail: memory, a part that cannot be built, or a type inside it that cannot. -/
def Fails {β : Type} (C : Catalog) (d : Draft) (ts : List TypeDef)
    (built : Naming → Except Fault β) (f : Fault) : Prop :=
  f = .memoryAllocation ∨ (∀ ν, d.uris.Fits ν → ∃ f, built ν = .error f) ∨
    ∃ t ∈ ts, ¬t.Builds C.options

theorem Fails.left {β : Type} {ts ts' : List TypeDef} {built built' : Naming → Except Fault β}
    {f : Fault} (fails : d.Fails C ts built f)
    (weaker : ∀ ν f, built ν = .error f → ∃ f, built' ν = .error f) (more : ∀ t ∈ ts, t ∈ ts') :
    d.Fails C ts' built' f := by
  refine fails.imp_right (Or.imp (fun bad ν fits => ?_) fun ⟨t, mem, bad⟩ => ⟨t, more t mem, bad⟩)
  obtain ⟨f, here⟩ := bad ν fits
  exact weaker ν f here

/-- So many free grammars wait on top of the stack. -/
def Waiting (d₀ d : Draft) (n : Nat) (gs : List Grammar) : Prop :=
  ∃ ids, d.stack = ids.reverse ++ d₀.stack ∧ ids.length = n ∧ d.HoldsAll ids gs ∧
    ∀ id ∈ ids, d₀.Free d id

theorem Waiting.cons {n : Nat} {id : GrammarId} {g : Grammar} {gs : List Grammar}
    (waiting : d'.Waiting e n gs) (top : d'.stack = id :: d.stack) (here : d'.Holds id g)
    (free : d.Free d' id) (walked : d'.Walked e) (before : d.Keeps d') (after : d'.Keeps e) :
    d.Waiting e (n + 1) (g :: gs) := by
  obtain ⟨ids, stack, length, holds, frees⟩ := waiting
  refine ⟨id :: ids, ?_, congrArg (· + 1) length, .cons (walked.grows.grammars here) holds, ?_⟩
  · rw [stack, top, List.reverse_cons, List.append_assoc]
    rfl
  · refine List.forall_mem_cons.2 ⟨after.free free here.lt, fun i mem => ?_⟩
    exact ⟨before.size.trans (frees i mem).fresh, (frees i mem).free⟩

end Draft

open Draft

/-- The action walks on, mentions `ms` and covers the types `ts`. Its result stands for what `built`
gives, and it fails only if that cannot be built, or one of the types. -/
def Notes {α β : Type} (C : Catalog) (action : Drafting α) (d : Draft) (ms : List Mention)
    (ts : List TypeDef) (stands : Draft → α → β → Prop) (built : Naming → Except Fault β) : Prop :=
  d.store.Sound → ∀ before, d.Recorded C before →
    Yields action d
      (fun a d' => d.Noted C d' (before ++ ms) ts ∧
        ∃ b, stands d' a b ∧ ∀ ν, d'.uris.Fits ν → built ν = .ok b)
      (fun f d' => d.Walked d' ∧ d'.Fails C ts built f)

namespace Notes

variable {α β γ δ : Type} {C : Catalog} {d d₀ : Draft} {action : Drafting α}
  {next : α → Drafting γ} {ms ms' : List Mention} {ts ts' : List TypeDef}
  {R : Draft → α → β → Prop} {built : Naming → Except Fault β}
  {S : Draft → γ → δ → Prop} {m : Naming → β → Except Fault δ}

theorem mono {R' : Draft → α → β → Prop} (spec : Notes C action d ms ts R built)
    (weaker : ∀ d' a b, d.Walked d' → d.Keeps d' → R d' a b → R' d' a b) :
    Notes C action d ms ts R' built := by
  intro sound before recorded
  refine (spec sound before recorded).mono_ok ?_
  rintro a d' ⟨noted, b, here, eq⟩
  exact ⟨noted, b, weaker d' a b noted.walked noted.keeps here, eq⟩

theorem congr {built' : Naming → Except Fault β} (spec : Notes C action d ms ts R built)
    (same : ∀ ν, built' ν = built ν) : Notes C action d ms ts R built' := by
  rwa [show built' = built from funext same]

theorem of_makes {rs : List Registration} {P : α → Prop} (spec : Makes action d R built)
    (enters : Enters action d rs P) :
    Notes C action d (enterAll rs) []
      (fun d' a b => d'.stack = d.stack ∧ (∀ id, d'.Claimed id → d.Claimed id) ∧ R d' a b ∧ P a)
      built := by
  intro sound before recorded
  refine ((spec sound).and enters).mono ?_ ?_
  · rintro a d' ⟨⟨adds, b, here, eq⟩, names, _, result⟩
    have kept := adds.kept names
    exact ⟨⟨adds.walked.1, kept.keeps, recorded.keep kept, by simp⟩, b,
      ⟨adds.walked.2, fun _ => kept.claimed, here, result⟩, eq⟩
  · rintro f d' ⟨⟨adds, cause⟩, _⟩
    exact ⟨adds.walked.1, cause.imp_right fun bad => .inl fun ν fits => ⟨f, bad ν fits⟩⟩

theorem of_recorded (spec : ∀ before, d.Recorded C before → Notes C action d ms ts R built) :
    Notes C action d ms ts R built :=
  fun sound before recorded => spec before recorded sound before recorded

theorem of_makes_result {rs : List Registration} (spec : Makes action d R built)
    (enters : Enters action d rs fun _ => True) :
    Notes C action d (enterAll rs) [] (fun d' a b => d'.stack = d.stack ∧ R d' a b) built :=
  (of_makes spec enters).mono fun _ _ _ _ _ ⟨stack, _, here, _⟩ => ⟨stack, here⟩

/-- A grammar that is put together of free ones is itself free. -/
theorem of_makes_free {action : Drafting GrammarId} {built : Naming → Except Fault Grammar}
    {rs : List Registration} {ids : List GrammarId} (spec : Makes action d Holds built)
    (enters : ∀ ok, d.Fresh ok → (∀ id ∈ ids, ok id) → Enters action d rs ok)
    (le : d₀.grammars.size ≤ d.grammars.size) (free : ∀ id ∈ ids, d₀.Free d id) :
    Notes C action d (enterAll rs) []
      (fun d' id g => d'.stack = d.stack ∧ d'.Holds id g ∧ d₀.Free d' id) built := by
  refine .of_recorded fun before recorded => ?_
  have fresh : d.Fresh fun id => d₀.Free d id := fun id here =>
    ⟨le.trans here, fun claimed => absurd (recorded.claimed_lt claimed) (Nat.not_lt.2 here)⟩
  refine (of_makes spec (enters _ fresh free)).mono ?_
  rintro d' id g _ _ ⟨stack, claims, here, result⟩
  exact ⟨stack, here, result.fresh, fun claimed => result.free (claims id claimed)⟩

theorem pure {a : α} {b : β} (here : R d a b) : Notes C (pure a) d [] [] R fun _ => .ok b := by
  intro _ before recorded
  refine yields_pure ⟨⟨.refl d, .refl d, ?_, by simp⟩, b, here, fun _ _ => rfl⟩
  rwa [List.append_nil]

theorem throw {fault : Fault} : Notes C (throw fault) d ms ts R fun _ => .error fault :=
  fun _ _ _ => yields_throw ⟨.refl d, .inr (.inl fun _ _ => ⟨fault, rfl⟩)⟩

theorem bind (first : Notes C action d ms ts R built)
    (rest : ∀ a b d', d.Walked d' → d.Keeps d' → R d' a b →
      Notes C (next a) d' ms' ts' S fun ν => m ν b) :
    Notes C (action >>= next) d (ms ++ ms') (ts ++ ts') S fun ν => built ν >>= m ν := by
  intro sound before recorded
  refine ((first sound before recorded).mono_fails ?_).bind ?_
  · rintro f d' ⟨walked, cause⟩
    refine ⟨walked, cause.imp_right (Or.imp (fun bad ν fits => ?_) fun ⟨t, mem, bad⟩ =>
      ⟨t, List.mem_append_left _ mem, bad⟩)⟩
    obtain ⟨f, here⟩ := bad ν fits
    exact ⟨f, by simp only [here]; rfl⟩
  · rintro a d' ⟨noted, b, here, eq⟩
    have before' {ν : Naming} {d'' : Draft} (later : d'.Walked d'') (fits : d''.uris.Fits ν) :
        (built ν >>= m ν) = m ν b := by
      rw [eq ν (fits.of_extends later.grows.uris.extends)]
      rfl
    refine (rest a b d' noted.walked noted.keeps here (noted.walked.grows.sound sound) _
      noted.recorded).mono ?_ ?_
    · rintro c d'' ⟨later, x, there, eq'⟩
      refine ⟨?_, x, there, fun ν fits => (before' later.walked fits).trans (eq' ν fits)⟩
      rw [← List.append_assoc]
      exact noted.trans later
    · rintro f d'' ⟨later, cause⟩
      refine ⟨noted.walked.trans later, cause.imp_right (Or.imp (fun bad ν fits => ?_)
        fun ⟨t, mem, bad⟩ => ⟨t, List.mem_append_right _ mem, bad⟩)⟩
      obtain ⟨f, here⟩ := bad ν fits
      exact ⟨f, (before' later fits).trans here⟩

theorem bind_last (first : Notes C action d ms ts R built)
    (rest : ∀ a b d', d.Walked d' → d.Keeps d' → R d' a b →
      Notes C (next a) d' [] [] S fun ν => m ν b) :
    Notes C (action >>= next) d ms ts S fun ν => built ν >>= m ν := by
  have both := first.bind rest
  rwa [List.append_nil, List.append_nil] at both

theorem take {ι : Type} {take : Drafting ι} {M : Draft → ι → β → Prop}
    (spec : Notes C action d ms ts (fun d' _ b => ∃ c,
      take d' = .ok c { d' with stack := d.stack } ∧ M { d' with stack := d.stack } c b) built) :
    Notes C (action >>= fun _ => take) d ms ts (fun d' c b => d'.stack = d.stack ∧ M d' c b)
      built := by
  intro sound before recorded
  refine (spec sound before recorded).bind ?_
  rintro a d' ⟨noted, b, ⟨c, run, here⟩, eq⟩
  rw [Yields, run]
  exact ⟨noted.withStack (List.suffix_refl _), b, ⟨rfl, here⟩, eq⟩

theorem pop {built : Naming → Except Fault Grammar}
    (spec : Notes C action d ms ts
      (fun d' _ g => ∃ id, d'.stack = id :: d.stack ∧ d'.Holds id g ∧ d₀.Free d' id) built) :
    Notes C (action >>= fun _ => Draft.pop) d ms ts
      (fun d' id g => d'.stack = d.stack ∧ d'.Holds id g ∧ d₀.Free d' id) built :=
  take (spec.mono fun _ _ _ _ _ ⟨id, top, here, free⟩ =>
    ⟨id, pop_eq top, here, free.fresh, free.free⟩)

theorem popMany {n : Nat} {built : Naming → Except Fault (List Grammar)}
    (spec : Notes C action d ms ts (fun d' _ gs => d.Waiting d' n gs) built) :
    Notes C (action >>= fun _ => Draft.popMany n) d ms ts
      (fun d' ids gs => d'.stack = d.stack ∧ d'.HoldsAll ids gs ∧ ∀ id ∈ ids, d.Free d' id)
      built := by
  refine take (spec.mono fun d' _ gs _ _ ⟨ids, top, length, here, free⟩ =>
    ⟨ids, length ▸ popMany_eq top, here, fun id mem => ?_⟩)
  exact ⟨(free id mem).fresh, (free id mem).free⟩

theorem push {action : Drafting GrammarId} {built : Naming → Except Fault Grammar}
    (spec : Notes C action d ms ts
      (fun d' id g => d'.stack = d.stack ∧ d'.Holds id g ∧ d₀.Free d' id) built) :
    Notes C (action >>= Draft.push) d ms ts
      (fun d' _ g => ∃ id, d'.stack = id :: d.stack ∧ d'.Holds id g ∧ d₀.Free d' id) built := by
  intro sound before recorded
  refine (spec sound before recorded).bind ?_
  rintro id d' ⟨noted, g, ⟨stack, here, free⟩, eq⟩
  refine ⟨noted.withStack (noted.walked.stack.trans (List.suffix_cons id _)), g,
    ⟨id, ?_, here, free.fresh, free.free⟩, eq⟩
  rw [← stack]

/-- What is built is of no interest any more, as long as it tells why the action failed. -/
theorem absorb (spec : Notes C action d ms ts R built)
    (cause : ∀ ν f, built ν = .error f → ∃ t ∈ ts, ¬t.Builds C.options) :
    Notes C action d ms ts (fun d' a (_ : Unit) => ∃ b, R d' a b) fun _ => .ok () := by
  intro sound before recorded
  refine (spec sound before recorded).mono ?_ ?_
  · rintro a d' ⟨noted, b, here, _⟩
    exact ⟨noted, (), ⟨b, here⟩, fun _ _ => rfl⟩
  · rintro f d' ⟨walked, memory | bad | inner⟩
    · exact ⟨walked, .inl memory⟩
    · obtain ⟨f', here⟩ := bad _ d'.uris.fits_naming
      exact ⟨walked, .inr (.inr (cause _ f' here))⟩
    · exact ⟨walked, .inr (.inr inner)⟩

theorem map {f : β → δ} (spec : Notes C action d ms ts R built) :
    Notes C action d ms ts (fun d' a c => ∃ b, R d' a b ∧ f b = c) fun ν => (built ν).map f := by
  intro sound before recorded
  refine (spec sound before recorded).mono ?_ ?_
  · rintro a d' ⟨noted, b, here, eq⟩
    exact ⟨noted, f b, ⟨b, here, rfl⟩, fun ν fits => congrArg (Except.map f) (eq ν fits)⟩
  · rintro fault d' ⟨walked, cause⟩
    refine ⟨walked, cause.imp_right (Or.imp_left fun bad ν fits => ?_)⟩
    obtain ⟨f', here⟩ := bad ν fits
    exact ⟨f', congrArg (Except.map f) here⟩

theorem refusing {allowed : Bool} {fault : Fault} {next : Unit → Drafting α}
    (rest : allowed = true → Notes C (next ()) d ms ts R built)
    (bad : allowed ≠ true → ∀ ν, built ν = .error fault) :
    Notes C (if allowed = true then next () else MonadExcept.throw fault >>= next) d ms ts R built := by
  split
  · exact rest ‹_›
  · exact Notes.congr throw (bad ‹_›)

end Notes

namespace Draft

variable {C : Catalog} {d d' d₀ : Draft}

theorem forElement_yields {type : GrammarId} {g : Grammar} (sound : d.store.Sound)
    (here : d.Holds type g) :
    Yields (forElement type) d
      (fun id d' => d.Adds d' ∧ d.Kept d' [] ∧ d'.Holds id g)
      fun f d' => d.Adds d' ∧ f = .memoryAllocation := by
  have same : g.renumber = g := (sound g here.mem).renumber_eq
  have entered : Enters (forElement type) d [] fun _ => True :=
    enters_forElement fun _ _ => trivial
  refine (Yields.and ((makes_forElement type).of_holds here sound) entered).mono ?_ ?_
  · rintro id d' ⟨⟨adds, g', holds, eq⟩, names, _⟩
    cases eq _ d'.uris.fits_naming
    exact ⟨adds, adds.kept names, same ▸ holds⟩
  · rintro f d' ⟨⟨adds, cause⟩, _⟩
    refine ⟨adds, cause.resolve_right fun bad => ?_⟩
    cases bad _ d'.uris.fits_naming

theorem Keeps.declareLocal {o : Origin} {type : GrammarId} (keeps : d₀.Keeps d)
    (grants : d₀.Grants d o type) {name : NameRef} (id : GrammarId) :
    d₀.Keeps { d with locals := d.locals.push ⟨name, type, id⟩ } := by
  refine ⟨keeps.size, keeps.typeIds, ?_, keeps.waiting, keeps.globals⟩
  rintro i lt (⟨o', claimed⟩ | ⟨e, mem, rfl⟩)
  · exact keeps.claims i lt (.inl ⟨o', claimed⟩)
  · rw [Array.toList_push] at mem
    rcases List.mem_append.1 mem with old | new
    · exact keeps.claims _ lt (.inr ⟨e, old, rfl⟩)
    · obtain rfl := List.mem_singleton.1 new
      cases shared : o.shared with
      | true => exact keeps.claims _ lt (.inl ⟨o, grants.shared shared⟩)
      | false => exact absurd (grants.own shared).fresh (Nat.not_le.2 lt)

/-- A local element is declared with the number that its type has. -/
theorem yields_declareLocal {ms : List Mention} {name : QName} {o : Origin} {ref : NameRef}
    {type : GrammarId} (sound : d.store.Sound) (recorded : d.Recorded C ms) (keeps : d₀.Keeps d)
    (idle : d.active = d₀.active) (found : d.uris.find? name = some ref) (grants : d₀.Grants d o type)
    (bears : d.Bears type (C.held o)) :
    Yields (declareLocal ref type) d
      (fun _ d' => d.Walked d' ∧ d'.stack = d.stack ∧ d₀.Keeps d' ∧
        (∀ o id, d.typeId? o = some id → d'.typeId? o = some id) ∧
        d'.Recorded C (ms ++ [.declares name o]))
      fun f d' => d.Walked d' ∧ f = .memoryAllocation := by
  refine yields_get_bind ?_
  cases listed : d.localGrammar? ref type with
  | some shared =>
    obtain ⟨e, mem, same⟩ : ∃ e ∈ d.locals.toList, e.name = ref ∧ e.type = type := by
      by_contra none
      rw [localGrammar?_eq_none_iff.2 fun e mem same => none ⟨e, mem, same⟩] at listed
      cases listed
    have shares : o.shared = true := by
      by_contra own
      -- the number of a type of its own stands in no entry
      exact (grants.own (Bool.not_eq_true _ ▸ own)).free (.inr ⟨e, mem, same.2⟩)
    exact ⟨.refl d, rfl, keeps, fun _ _ here => here,
      recorded.declareAgain found (grants.shared shares) mem same⟩
  | none =>
    obtain ⟨g, here, eq⟩ := bears
    refine Yields.bind ((forElement_yields sound here).mono_fails
      fun f d' bad => ⟨bad.1.walked.1, bad.2⟩) ?_
    rintro id d₁ ⟨adds, kept, holds⟩
    have recorded₁ := recorded.keep_quiet kept
    have keeps₁ := keeps.trans kept.keeps idle
    have grants₁ := kept.keeps.grants grants here.lt
    have absent : d₁.localGrammar? ref type = none := by
      rwa [localGrammar?, kept.locals]
    have added := recorded₁.declareNew (adds.extends.find? found) grants₁ (adds.holds here).lt
      ⟨g, holds, fun ν fits => eq ν (fits.of_extends adds.extends)⟩ absent
    exact ⟨⟨adds.grows, adds.walked.1.stack, adds.walked.1.active, adds.walked.1.options⟩,
      adds.walked.2, keeps₁.declareLocal grants₁ id, kept.keeps.typeIds, added⟩

theorem notes_declares {α : Type} {source : Drafting α} {type : α → GrammarId} {ms : List Mention}
    {ts : List TypeDef} {name : QName} {o : Origin} {ref : NameRef}
    (found : d.uris.find? name = some ref)
    (spec : Notes C source d ms ts (fun d' a g => d'.stack = d.stack ∧ d'.Holds (type a) g ∧
      d.Grants d' o (type a)) (C.held o)) :
    Notes C (source >>= fun a => declareLocal ref (type a) >>= fun _ => pure ()) d
      (ms ++ [.declares name o]) ts (fun d' _ _ => d'.stack = d.stack) (C.held o) := by
  intro sound before recorded
  refine Yields.bind (spec sound before recorded) ?_
  rintro a d₁ ⟨noted, g, ⟨stack, here, grants⟩, eq⟩
  have extends₁ := noted.walked.grows.uris.extends
  refine Yields.bind ((yields_declareLocal (noted.walked.grows.sound sound) noted.recorded
    noted.keeps noted.walked.active (extends₁.find? found) grants ⟨g, here, eq⟩).mono_fails ?_) ?_
  · rintro f d' ⟨walked, memory⟩
    exact ⟨noted.walked.trans walked, .inl memory⟩
  · rintro _ d' ⟨walked, stack', keeps, typeIds, recorded'⟩
    rw [List.append_assoc] at recorded'
    refine ⟨⟨noted.walked.trans walked, keeps, recorded', fun t mem =>
      (noted.covers t mem).keep typeIds⟩, g, stack'.trans stack, fun ν fits => ?_⟩
    exact eq ν (fits.of_extends walked.grows.uris.extends)

theorem notes_anyTypeGrammar :
    Notes C anyTypeGrammar d [] []
      (fun d' id g => d'.stack = d.stack ∧ d'.Holds id g ∧ d.Grants d' .anyType id)
      (C.held .anyType) := by
  intro sound before recorded
  rw [List.append_nil]
  refine yields_get_bind ?_
  cases present : d.anyType with
  | some id =>
    exact ⟨⟨.refl d, .refl d, recorded, by simp⟩, .anything,
      ⟨rfl, recorded.any id present, fun _ => present, fun own => by cases own⟩, fun _ _ => rfl⟩
  | none =>
    have fresh : d.Fresh fun id => d.Free d id := fun id here =>
      ⟨here, fun claimed => absurd (recorded.claimed_lt claimed) (Nat.not_lt.2 here)⟩
    refine Yields.bind ((Yields.and (makes_anyContent sound) (enters_insert fresh .anything)).mono
      (fun _ _ good => good) ?_) ?_
    · rintro f d' ⟨⟨adds, cause⟩, _⟩
      refine ⟨adds.walked.1, .inl (cause.resolve_right fun bad => ?_)⟩
      cases bad _ d'.uris.fits_naming
    · rintro id d₁ ⟨⟨adds, g, here, eq⟩, names, _, free⟩
      cases eq _ d₁.uris.fits_naming
      have kept := adds.kept names
      have recorded₁ := recorded.keep_quiet kept
      have free₁ : ¬d₁.Claimed id := fun claimed => free.free (kept.claimed claimed)
      have claims := claims_anyType (kept.anyType.trans present) free₁
      refine ⟨⟨⟨adds.grows, ?_, ?_, ?_⟩, ⟨kept.keeps.size, fun o i old =>
        claims.typeIds (kept.keeps.typeIds o i old), fun i lt claimed => ?_,
        kept.keeps.waiting, kept.globals⟩,
        recorded₁.declareAny claims here, by simp⟩, .anything, ⟨?_, here, fun _ => rfl,
        fun own => by cases own⟩, fun _ _ => rfl⟩
      · exact adds.walked.1.stack
      · exact adds.walked.1.active
      · exact adds.walked.1.options
      · rcases claims.claimed claimed with old | rfl
        · exact kept.claimed old
        · exact absurd free.fresh (Nat.not_le.2 lt)
      · exact adds.walked.2

/-- Every type that is being compiled is larger than `n`. -/
def Inside (C : Catalog) (d : Draft) (n : Nat) : Prop :=
  ∀ name ∈ d.active, ∃ t, C.type? name = some t ∧ n < sizeOf t

theorem Inside.mono {m n : Nat} (inside : d.Inside C n) (le : m ≤ n)
    (same : d'.active = d.active) : d'.Inside C m := by
  intro name mem
  obtain ⟨t, listed, lt⟩ := inside name (same ▸ mem)
  exact ⟨t, listed, le.trans_lt lt⟩

/-- A type is not inside itself, so it is not being compiled when it is met. -/
theorem Inside.idle {t : TypeDef} {name : QName} (inside : d.Inside C (sizeOf t))
    (listed : C.type? name = some t) : d.active.contains name = false := by
  rw [← Bool.not_eq_true, List.contains_iff_mem]
  intro mem
  obtain ⟨t', listed', lt⟩ := inside name mem
  cases listed.symm.trans listed'
  exact Nat.lt_irrefl _ lt

theorem declareType_eq {name : QName} {pair : GrammarPair} {gs : Grammar × Grammar}
    (holds : d.HoldsPair pair gs) :
    declareType name pair d = .ok () { d with types := d.types.insert name pair } := by
  simp only [declareType, bind, EStateM.bind, grammar_eq, holds.1.read, holds.2.read, ofExcept]
  rfl

theorem notes_whileActive {α β : Type} {name : QName} {action : Drafting α} {ms : List Mention}
    {ts : List TypeDef} {R R' : Draft → α → β → Prop} {built : Naming → Except Fault β}
    (absent : d.types.find? name = none)
    (spec : Notes C action { d with active := name :: d.active } ms ts R built)
    (out : ∀ d' a b, R d' a b → R' { d' with active := d'.active.tail } a b) :
    Notes C (whileActive name action) d ms ts
      (fun d' a b => d'.types.find? name = none ∧ R' d' a b) built := by
  intro sound before recorded
  have inner := spec sound before (recorded.withStack d.stack _)
  have back {d' : Draft} (walked : Draft.Walked { d with active := name :: d.active } d') :
      d.Walked { d' with active := d'.active.tail } :=
    ⟨walked.grows, walked.stack, congrArg List.tail walked.active, walked.options⟩
  refine yields_whileActive_iff.2 (inner.mono ?_ fun _ _ bad => ⟨back bad.1, bad.2⟩)
  rintro a d' ⟨⟨walked, keeps, recorded', covers⟩, b, here, eq⟩
  refine ⟨⟨back walked, ⟨keeps.size, keeps.typeIds, keeps.claims, fun name' mem =>
    keeps.waiting name' (List.mem_cons_of_mem name mem), keeps.globals⟩,
    recorded'.withStack d'.stack _, fun t mem => (covers t mem).keep fun _ _ here => here⟩, b,
    ⟨keeps.waiting name List.mem_cons_self absent, out d' a b here⟩, eq⟩

/-- What the grammars of a type are to those who asked for them. -/
def PairStands (d₀ : Draft) (t : TypeDef) (d : Draft) (pair : GrammarPair)
    (gs : Grammar × Grammar) : Prop :=
  d.stack = d₀.stack ∧ d.HoldsPair pair gs ∧ d₀.Grants d t.origin pair.grammar

theorem Noted.declareType {ms : List Mention} {name : QName} {pair : GrammarPair} {t : TypeDef}
    {gs : Grammar × Grammar} (noted : d.Noted C d' (ms ++ t.mentions) (typesOf t.elements))
    (named : t.name? = some name) (listed : C.type? name = some t) (idle : name ∉ d.active)
    (absent : d'.types.find? name = none) (holds : d'.HoldsPair pair gs)
    (free : d.Free d' pair.grammar) (eq : ∀ ν, d'.uris.Fits ν → t.grammars C.options ν = .ok gs) :
    d.Noted C { d' with types := d'.types.insert name pair } ms t.types ∧
      Draft.typeId? { d' with types := d'.types.insert name pair } (.named name) =
        some pair.grammar := by
  have claims := claims_declareType absent free.free
  have covers : ∀ t' ∈ t.types,
      Draft.Covers C { d' with types := d'.types.insert name pair } t' := by
    rw [TypeDef.types_eq, List.forall_mem_cons]
    refine ⟨⟨⟨_, gs, eq _ d'.uris.fits_naming⟩, fun name' named' => ?_⟩, fun t' mem =>
      (noted.covers t' mem).keep fun _ _ => claims.typeIds⟩
    cases named.symm.trans named'
    exact ⟨_, claims.here⟩
  refine ⟨⟨⟨noted.walked.grows, noted.walked.stack, noted.walked.active, noted.walked.options⟩,
    ⟨noted.keeps.size, fun o id old => claims.typeIds (noted.keeps.typeIds o id old),
      fun id lt claimed => ?_, fun name' mem old => ?_, noted.keeps.globals⟩,
    noted.recorded.declareType absent claims ⟨listed, ⟨gs, holds, eq⟩, covers⟩, covers⟩,
    claims.here⟩
  · rcases claims.claimed claimed with old | rfl
    · exact noted.keeps.claims id lt old
    · exact absurd free.fresh (Nat.not_le.2 lt)
  · have ne : name' ≠ name := by
      rintro rfl
      exact idle mem
    exact (TypeRegistry.find?_insert.trans (if_neg ne)).trans (noted.keeps.waiting name' mem old)

theorem pairStands_inline {t : TypeDef} {pair : GrammarPair} {gs : Grammar × Grammar}
    (unnamed : t.name? = none) (stack : d.stack = d₀.stack) (holds : d.HoldsPair pair gs)
    (free : d₀.Free d pair.grammar) : d₀.PairStands t d pair gs := by
  refine ⟨stack, holds, ?_, fun _ => free⟩
  rw [TypeDef.origin_of_inline unnamed]
  rintro ⟨⟩

theorem pairStands_named {t : TypeDef} {name : QName} {pair : GrammarPair} {gs : Grammar × Grammar}
    (named : t.name? = some name) (stack : d.stack = d₀.stack) (holds : d.HoldsPair pair gs)
    (here : d.typeId? (.named name) = some pair.grammar) : d₀.PairStands t d pair gs := by
  refine ⟨stack, holds, fun _ => ?_, ?_⟩ <;> rw [TypeDef.origin_of_named named]
  · exact here
  · rintro ⟨⟩

theorem Fails.of_inner {t : TypeDef} {f : Fault}
    (fails : d.Fails C (typesOf t.elements) (t.grammars C.options) f) :
    d.Fails C t.types (t.grammars C.options) f :=
  fails.left (fun _ f here => ⟨f, here⟩) fun _ mem => List.mem_cons_of_mem t mem

theorem notes_inline {t : TypeDef} {build : Drafting GrammarPair} (unnamed : t.name? = none)
    (spec : Notes C build d t.mentions (typesOf t.elements)
      (fun d' pair gs => d'.stack = d.stack ∧ d'.HoldsPair pair gs ∧ d.Free d' pair.grammar)
      (t.grammars C.options)) :
    Notes C build d t.mentions t.types (d.PairStands t) (t.grammars C.options) := by
  intro sound before recorded
  refine (spec sound before recorded).mono ?_ fun f d' bad => ⟨bad.1, bad.2.of_inner⟩
  rintro pair d' ⟨noted, gs, ⟨stack, holds, free⟩, eq⟩
  refine ⟨⟨noted.walked, noted.keeps, noted.recorded, ?_⟩, gs,
    pairStands_inline unnamed stack holds free, eq⟩
  rw [TypeDef.types_eq, List.forall_mem_cons]
  refine ⟨⟨⟨_, gs, eq _ d'.uris.fits_naming⟩, fun name named => ?_⟩, noted.covers⟩
  rw [unnamed] at named
  cases named

theorem notes_registering {t : TypeDef} {name : QName} {build : Drafting GrammarPair}
    (has : C.Has t) (named : t.name? = some name) (idle : name ∉ d.active)
    (absent : d.types.find? name = none)
    (spec : Notes C build { d with active := name :: d.active } t.mentions (typesOf t.elements)
      (fun d' pair gs => d'.stack = d.stack ∧ d'.HoldsPair pair gs ∧
        Free { d with active := name :: d.active } d' pair.grammar) (t.grammars C.options)) :
    Notes C (whileActive name build >>= fun pair => declareType name pair >>= fun _ => pure pair) d
      [] t.types (d.PairStands t) (t.grammars C.options) := by
  intro sound before recorded
  have built : Notes C (whileActive name build) d t.mentions (typesOf t.elements)
      (fun d' pair gs => d'.types.find? name = none ∧ d'.stack = d.stack ∧
        d'.HoldsPair pair gs ∧ d.Free d' pair.grammar) (t.grammars C.options) :=
    notes_whileActive absent spec fun _ _ _ ⟨stack, holds, free⟩ =>
      ⟨stack, holds, free.fresh, free.free⟩
  refine ((built sound before recorded).mono_fails
    fun f d' bad => ⟨bad.1, bad.2.of_inner⟩).bind ?_
  rintro pair d₁ ⟨noted, gs, ⟨absent₁, stack, holds, free⟩, eq⟩
  obtain ⟨noted', here⟩ := noted.declareType named (has name named) idle absent₁ holds free eq
  refine Yields.bind (M := fun _ d' => d' = { d₁ with types := d₁.types.insert name pair })
    (by rw [Yields, declareType_eq holds]) ?_
  rintro _ d' rfl
  rw [List.append_nil]
  exact ⟨noted', gs, pairStands_named named stack holds here, eq⟩

/-- Building a type is noted once: under its name if it has one, else where it is used. -/
theorem notes_onceFor {t : TypeDef} {build : Drafting GrammarPair} (has : C.Has t)
    (inside : d.Inside C (sizeOf t))
    (spec : ∀ e : Draft, (∀ name ∈ e.active, name ∈ d.active ∨ t.name? = some name) →
      Notes C build e t.mentions (typesOf t.elements)
        (fun d' pair gs => d'.stack = e.stack ∧ d'.HoldsPair pair gs ∧ e.Free d' pair.grammar)
        (t.grammars C.options)) :
    Notes C (onceFor t.name? build) d t.ownMentions t.types (d.PairStands t)
      (t.grammars C.options) := by
  cases named : t.name? with
  | none =>
    rw [TypeDef.ownMentions_of_inline named]
    exact notes_inline named (spec d fun _ mem => .inl mem)
  | some name =>
    intro sound before recorded
    rw [TypeDef.ownMentions_of_named named]
    refine yields_get_bind ?_
    cases present : d.types.find? name with
    | some pair =>
      obtain ⟨t', stands⟩ := recorded.types name pair present
      cases (has name named).symm.trans stands.listed
      obtain ⟨gs, holds, eq⟩ := stands.grammars
      have here : d.typeId? (.named name) = some pair.grammar := by rw [typeId?, present]; rfl
      rw [List.append_nil]
      exact ⟨⟨.refl d, .refl d, recorded, stands.covers⟩, gs,
        pairStands_named named rfl holds here, eq⟩
    | none =>
      have notActive := inside.idle (has name named)
      dsimp only
      rw [notActive, if_neg Bool.false_ne_true]
      have idle : name ∉ d.active := by
        rw [← List.contains_iff_mem, notActive]
        exact Bool.false_ne_true
      refine notes_registering has named idle present (spec _ fun other mem => ?_) sound before recorded
      rcases List.mem_cons.1 mem with rfl | old
      · exact .inr named
      · exact .inl old

theorem Free.since {e : Draft} {id : GrammarId} (free : e.Free d id)
    (le : d₀.grammars.size ≤ e.grammars.size) : d₀.Free d id := ⟨le.trans free.fresh, free.free⟩

theorem notes_simpleContent (builtIn : String) :
    Notes C (simpleContent builtIn) d [] []
      (fun d' id g => d'.stack = d.stack ∧ d'.Holds id g ∧ d.Free d' id)
      fun ν => (Content.simple builtIn).grammar ν :=
  .of_makes_free (makes_simpleContent builtIn) (fun _ fresh _ => enters_simpleContent fresh builtIn)
    le_rfl (List.forall_mem_nil _)

theorem notes_emptyContent :
    Notes C emptyContent d [] [] (fun d' id g => d'.stack = d.stack ∧ d'.Holds id g ∧ d.Free d' id)
      fun _ => .ok .endOnly :=
  .of_makes_free makes_emptyContent (fun _ fresh _ => enters_insert fresh _) le_rfl
    (List.forall_mem_nil _)

theorem notes_varietyGrammars (name : Option QName) (variety : Variety) (builtIn : String) :
    Notes C (varietyGrammars builtIn variety) d [] []
      (fun d' pair gs => d'.stack = d.stack ∧ d'.HoldsPair pair gs ∧ d.Free d' pair.grammar)
      ((TypeDef.simple name variety builtIn).grammars C.options) := by
  cases variety with
  | list _ | union _ => exact .throw
  | atomic =>
    refine ((notes_simpleContent builtIn).bind_last (m := fun _ g => .ok (g, Grammar.endOnly))
      fun id g d₁ _ _ ⟨stack, here, free⟩ => notes_emptyContent.bind_last
        (m := fun _ e => .ok (g, e)) fun _ _ d₂ walked keeps ⟨stack', there, _⟩ =>
          .pure ⟨stack'.trans stack, ⟨walked.grows.grammars here, there⟩,
            keeps.free free here.lt⟩).congr fun ν => ?_
    simp only [TypeDef.grammars, Content.grammar]
    cases Datatype.check builtIn <;> rfl

theorem notes_attributesOf (attributes : List AttributeUse) :
    Notes C (attributesOf attributes) d (enterAll (attributes.map AttributeUse.registration)) []
      (fun d' ids gs => d'.stack = d.stack ∧ d'.HoldsAll ids gs)
      fun ν => (orderedUses C.options attributes).mapM (AttributeUse.grammar ν) := by
  refine .of_recorded fun before recorded => ?_
  rw [← recorded.options]
  exact .of_makes_result (makes_attributesOf attributes) (enters_attributesOf attributes)

theorem notes_complexPair {uses : List GrammarId} {gs : List Grammar} {content : GrammarId}
    {g : Grammar} (wildcard : Option Wildcard) (usesHere : d.HoldsAll uses gs)
    (here : d.Holds content g) (le : d₀.grammars.size ≤ d.grammars.size) (free : d₀.Free d content) :
    Notes C (do
      let grammar ← complexContent uses wildcard content
      let empty ← complexEmpty uses wildcard
      return (⟨grammar, empty⟩ : GrammarPair)) d
      (enterAll (wildcard.elim [] Wildcard.registrations) ++
        enterAll (wildcard.elim [] Wildcard.registrations)) []
      (fun d' pair gs => d'.stack = d.stack ∧ d'.HoldsPair pair gs ∧ d₀.Free d' pair.grammar)
      fun ν => do
        let events ← wildcard.mapM ν.attributeEvents
        let grammar ← Grammar.complex gs events g
        let empty ← Grammar.complex gs events .endOnly
        return (grammar, empty) := by
  have first : Notes C (complexContent uses wildcard content) d _ [] (fun d' id g =>
      d'.stack = d.stack ∧ d'.Holds id g ∧ d₀.Free d' id) _ :=
    .of_makes_free (makes_complexContent wildcard usesHere here)
      (fun ok fresh (all : ∀ id ∈ [content], ok id) =>
        enters_complexContent fresh uses wildcard (all content List.mem_cons_self)) le
      (List.forall_mem_singleton.2 free)
  have second (d₁ : Draft) (walked : d.Walked d₁) : Notes C (complexEmpty uses wildcard) d₁ _ []
      (fun d' id g => d'.stack = d₁.stack ∧ d'.Holds id g) _ :=
    .of_makes_result
      (makes_complexEmpty wildcard (usesHere.imp fun _ _ known => walked.grows.grammars known))
      (enters_complexEmpty (fun _ _ => trivial) uses wildcard)
  refine (first.bind fun grammar whole d₁ walked₁ _ ⟨stack₁, here₁, free₁⟩ =>
    (second d₁ walked₁).bind_last (m := fun _ empty => .ok (whole, empty))
      fun empty none d₂ walked₂ keeps₂ ⟨stack₂, here₂⟩ =>
        .pure ⟨stack₂.trans stack₁, ⟨walked₂.grows.grammars here₁, here₂⟩,
          keeps₂.free free₁ here₁.lt⟩).congr fun ν => ?_
  cases events : wildcard.mapM ν.attributeEvents with
  | error f => rfl
  | ok events => rfl

theorem notes_complexGrammars (name : Option QName) (attributes : List AttributeUse)
    (wildcard : Option Wildcard) {content : Content}
    (spec : ∀ e : Draft, e.active = d.active →
      Notes C (contentGrammar content) e content.mentions (typesOf content.elements)
        (fun d' id g => d'.stack = e.stack ∧ d'.Holds id g ∧ e.Free d' id)
        fun ν => content.grammar ν) :
    Notes C (do
      let uses ← attributesOf attributes
      let content ← contentGrammar content
      let grammar ← complexContent uses wildcard content
      let empty ← complexEmpty uses wildcard
      return (⟨grammar, empty⟩ : GrammarPair)) d
      (TypeDef.complex name attributes wildcard content).mentions (typesOf content.elements)
      (fun d' pair gs => d'.stack = d.stack ∧ d'.HoldsPair pair gs ∧ d.Free d' pair.grammar)
      ((TypeDef.complex name attributes wildcard content).grammars C.options) := by
  have whole : Notes C _ d _ _ (fun d' pair gs =>
      d'.stack = d.stack ∧ d'.HoldsPair pair gs ∧ d.Free d' pair.grammar) _ :=
    (notes_attributesOf attributes).bind fun uses gs d₁ walked₁ keeps₁ ⟨stack₁, usesHere⟩ =>
      (spec d₁ walked₁.active).bind fun id g d₂ walked₂ keeps₂ ⟨stack₂, here, free⟩ =>
        (notes_complexPair wildcard (usesHere.imp fun _ _ known => walked₂.grows.grammars known)
          here (keeps₁.size.trans keeps₂.size) (free.since keeps₁.size)).mono
            fun d₃ pair both _ _ ⟨stack₃, rest⟩ => ⟨stack₃.trans (stack₂.trans stack₁), rest⟩
  rw [List.append_nil] at whole
  exact whole

theorem Inside.isActive {t : TypeDef} (inside : d.Inside C (sizeOf t)) (has : C.Has t) :
    d.isActive t = false := by
  unfold Draft.isActive
  split
  · next name named => exact inside.idle (has name named)
  · rfl

/-- An element with a type that is not being compiled gets declared at once. -/
theorem notes_meetType {type : TypeDef} {name : QName} {ref : NameRef} (has : C.Has type)
    (inside : d.Inside C (sizeOf type)) (found : d.uris.find? name = some ref)
    (spec : Notes C (typeGrammars type) d type.ownMentions type.types (d.PairStands type)
      (type.grammars C.options)) :
    Notes C (do
      if (← get).isActive type then putOff ref type
      else
        let grammars ← typeGrammars type
        let _ ← declareLocal ref grammars.grammar) d
      (type.ownMentions ++ [.declares name type.origin]) type.types
      (fun d' _ (_ : Unit) => d'.stack = d.stack) fun _ => .ok () := by
  have held : C.held type.origin = fun ν => (type.grammars C.options ν).map Prod.fst := by
    unfold Catalog.held
    rw [has.typeOf]
    rfl
  have source : Notes C (typeGrammars type) d type.ownMentions type.types
      (fun d' pair g => d'.stack = d.stack ∧ d'.Holds pair.grammar g ∧
        d.Grants d' type.origin pair.grammar) (C.held type.origin) := by
    rw [held]
    refine (spec.map (f := Prod.fst)).mono ?_
    rintro d' pair g _ _ ⟨gs, ⟨stack, holds, grants⟩, rfl⟩
    exact ⟨stack, holds.1, grants⟩
  have declared := (notes_declares found source).absorb fun ν f bad => by
    refine ⟨type, List.mem_cons_self, fun builds => ?_⟩
    obtain ⟨gs, good⟩ := builds.grammars ν
    rw [held] at bad
    simp only [good] at bad
    cases bad
  intro sound before recorded
  change Yields (if d.isActive type = true then _ else _) d _ _
  rw [if_neg (by rw [inside.isActive has]; exact Bool.false_ne_true)]
  exact (declared.mono fun d' _ _ _ _ ⟨_, stack⟩ => stack) sound before recorded

-- By recursion on the type. Whatever is being compiled is larger (`Inside`), and types of one name are
-- one type, so no element is put off: what is met is built at once or registered already.
mutual

theorem notes_typeGrammars : ∀ (t : TypeDef) (d : Draft), (∀ t' ∈ t.types, C.Has t') →
    d.Inside C (sizeOf t) →
    Notes C (typeGrammars t) d t.ownMentions t.types (d.PairStands t) (t.grammars C.options)
  | .simple name variety builtIn, d, has, inside => by
    rw [typeGrammars]
    exact notes_onceFor (t := .simple name variety builtIn) (has _ List.mem_cons_self) inside
      fun e _ => notes_varietyGrammars name variety builtIn
  | .complex name attributes wildcard content, d, has, inside => by
    rw [typeGrammars]
    refine notes_onceFor (t := .complex name attributes wildcard content)
      (has _ List.mem_cons_self) inside fun e active => ?_
    refine notes_complexGrammars name attributes wildcard fun e' same =>
      notes_contentGrammar content e' (fun t' mem => has t' (List.mem_cons_of_mem _ mem)) ?_
    have lt : sizeOf content < sizeOf (TypeDef.complex name attributes wildcard content) := by
      simp only [TypeDef.complex.sizeOf_spec]
      omega
    intro other mem
    rcases active other (same ▸ mem) with old | new
    · obtain ⟨t, listed, lt'⟩ := inside other old
      exact ⟨t, listed, lt.trans lt'⟩
    · exact ⟨_, has _ List.mem_cons_self other new, lt⟩
termination_by structural t => t

theorem notes_contentGrammar : ∀ (c : Content) (d : Draft),
    (∀ t ∈ typesOf c.elements, C.Has t) → d.Inside C (sizeOf c) →
    Notes C (contentGrammar c) d c.mentions (typesOf c.elements)
      (fun d' id g => d'.stack = d.stack ∧ d'.Holds id g ∧ d.Free d' id) fun ν => c.grammar ν
  | .empty, d, _, _ => notes_emptyContent
  | .simple builtIn, d, _, _ => notes_simpleContent builtIn
  | .elementOnly particle, d, has, inside =>
    (notes_placeParticle particle d has (inside.mono (by simp) rfl)).pop
  | .mixed particle, d, has, inside => by
    have spec := (notes_placeParticle particle d has (inside.mono (by simp) rfl)).pop.bind_last
      (S := fun d' id g => d'.stack = d.stack ∧ d'.Holds id g ∧ d.Free d' id)
      (m := fun _ g => .ok g.withText) fun id g d' _ keeps ⟨same, here, _⟩ =>
        (Notes.of_makes_free ((makes_mixed id).of_holds here) (fun _ fresh _ => enters_mixed fresh)
          keeps.size (List.forall_mem_nil _)).mono fun d'' _ _ _ _ ⟨same', rest⟩ =>
            ⟨same'.trans same, rest⟩
    rwa [bind_assoc] at spec
termination_by structural c => c

theorem notes_placeParticle : ∀ (p : Particle) (d : Draft),
    (∀ t ∈ typesOf p.elements, C.Has t) → d.Inside C (sizeOf p) →
    Notes C (placeParticle p) d p.mentions (typesOf p.elements)
      (fun d' _ g => ∃ id, d'.stack = id :: d.stack ∧ d'.Holds id g ∧ d.Free d' id)
      fun ν => p.grammar ν
  | ⟨minOccurs, maxOccurs, term⟩, d, has, inside => by
    have spec := (notes_placeTerm term d has (inside.mono (by simp) rfl)).pop.bind_last
      (S := fun d' id g => d'.stack = d.stack ∧ d'.Holds id g ∧ d.Free d' id)
      (m := fun _ g => g.repeated minOccurs maxOccurs) fun id g d' _ keeps ⟨same, here, free⟩ =>
        (Notes.of_makes_free ((makes_particle minOccurs maxOccurs id).of_holds here)
          (fun ok fresh (all : ∀ i ∈ [id], ok i) =>
            enters_particle fresh minOccurs maxOccurs (all id List.mem_cons_self))
          keeps.size (List.forall_mem_singleton.2 free)).mono fun d'' _ _ _ _ ⟨same', rest⟩ =>
            ⟨same'.trans same, rest⟩
    have pushed := spec.push
    simp only [bind_assoc] at pushed
    exact pushed
termination_by structural p => p

theorem notes_placeTerm : ∀ (term : Term) (d : Draft),
    (∀ t ∈ typesOf term.elements, C.Has t) → d.Inside C (sizeOf term) →
    Notes C (placeTerm term) d term.mentions (typesOf term.elements)
      (fun d' _ g => ∃ id, d'.stack = id :: d.stack ∧ d'.Holds id g ∧ d.Free d' id)
      fun ν => term.grammar ν
  | .element decl, d, has, inside => by
    have spec := (notes_meetElement decl d has (inside.mono (by simp) rfl)).bind
      fun _ _ d₁ _ keeps same =>
        (Notes.of_makes_free (makes_elementTerm decl.name)
          (fun _ fresh _ => enters_elementTerm fresh decl.name) keeps.size
          (List.forall_mem_nil _)).mono fun d₂ id g _ _ ⟨same', rest⟩ =>
            (⟨same'.trans same, rest⟩ :
              d₂.stack = d.stack ∧ d₂.Holds id g ∧ d.Free d₂ id)
    have pushed := spec.push
    simp only [bind_assoc, List.append_nil] at pushed
    refine pushed.congr fun ν => ?_
    simp only [Term.grammar, ElementDecl.check]
    split
    · cases decl.name.check <;> rfl
    · rfl
  | .wildcard wildcard, d, _, _ =>
    (Notes.of_makes_free (makes_wildcardTerm wildcard)
      (fun _ fresh _ => enters_wildcardTerm fresh wildcard) le_rfl (List.forall_mem_nil _)).push
  | .group compositor particles, d, has, inside => by
    have spec := (notes_placeParticles particles d has (inside.mono (by simp) rfl)).popMany.bind_last
      fun ids gs d₁ _ keeps ⟨same, here, free⟩ =>
        (Notes.of_makes_free ((makes_group compositor ids).of_holdsAll here)
          (fun _ fresh all => enters_group fresh compositor all) keeps.size free).mono
            fun d₂ id g _ _ ⟨same', rest⟩ =>
              (⟨same'.trans same, rest⟩ :
                d₂.stack = d.stack ∧ d₂.Holds id g ∧ d.Free d₂ id)
    have pushed := spec.push
    simp only [bind_assoc] at pushed
    exact pushed
termination_by structural term => term

theorem notes_placeParticles : ∀ (ps : List Particle) (d : Draft),
    (∀ t ∈ typesOf (elementsOfAll ps), C.Has t) → d.Inside C (sizeOf ps) →
    Notes C (placeParticles ps) d (mentionsOfAll ps) (typesOf (elementsOfAll ps))
      (fun d' _ gs => d.Waiting d' ps.length gs) fun ν => grammarsOf ν ps
  | [], d, _, _ => .pure ⟨[], rfl, rfl, .nil, List.forall_mem_nil _⟩
  | p :: ps, d, has, inside => by
    rw [elementsOfAll, typesOf_append] at has ⊢
    have spec := (notes_placeParticle p d (fun t mem => has t (List.mem_append_left _ mem))
      (inside.mono (by simp; omega) rfl)).bind fun _ g d₁ walked₁ keeps₁ ⟨id, top, here, free⟩ =>
        ((notes_placeParticles ps d₁ (fun t mem => has t (List.mem_append_right _ mem))
          (inside.mono (by simp) walked₁.active)).map (f := (g :: ·))).mono
            fun d₂ _ all walked₂ keeps₂ ⟨gs, waiting, same⟩ =>
              same ▸ waiting.cons top here free walked₂ keeps₁ keeps₂
    refine spec.congr fun ν => ?_
    rw [grammarsOf]
    cases p.grammar ν <;> cases grammarsOf ν ps <;> rfl
termination_by structural ps => ps

theorem notes_meetElement : ∀ (decl : ElementDecl) (d : Draft),
    (∀ t ∈ typesOf (decl :: decl.inner), C.Has t) → d.Inside C (sizeOf decl) →
    Notes C (meetElement decl) d decl.mentions (typesOf (decl :: decl.inner))
      (fun d' _ _ => d'.stack = d.stack) fun _ => decl.check
  | ⟨name, substitutes, none⟩, d, _, _ => by
    rw [meetElement]
    refine Notes.refusing (fun alone => ?_) fun refused ν => if_neg refused
    have entered := Notes.of_makes_result (makes_enterName name) (enters_enterName name) (C := C) (d := d)
    have spec := entered.bind
      fun ref _ d₁ _ _ ⟨stack₁, _, found⟩ =>
        ((notes_declares found notes_anyTypeGrammar).absorb (fun _ _ bad => by cases bad)).mono
          fun d₂ _ _ _ _ ⟨_, stack₂⟩ => (stack₂.trans stack₁ : d₂.stack = d.stack)
    refine Notes.congr spec fun ν => ?_
    rw [ElementDecl.check_eq (by exact alone)]
    cases name.check <;> rfl
  | ⟨name, substitutes, some type⟩, d, has, inside => by
    rw [meetElement]
    refine Notes.refusing (fun alone => ?_) fun refused ν => if_neg refused
    have inside' : d.Inside C (sizeOf type) := inside.mono (by simp; omega) rfl
    have spec := (Notes.of_makes_result (makes_enterName name) (enters_enterName name) (C := C)
      (d := d)).bind fun ref _ d₁ walked₁ _ ⟨stack₁, _, found⟩ =>
        (notes_meetType (has type List.mem_cons_self) (inside'.mono le_rfl walked₁.active) found
          (notes_typeGrammars type d₁ has (inside'.mono le_rfl walked₁.active))).mono
            fun d₂ _ _ _ _ stack₂ => (stack₂.trans stack₁ : d₂.stack = d.stack)
    refine Notes.congr spec fun ν => ?_
    rw [ElementDecl.check_eq (by exact alone)]
    cases name.check <;> rfl
termination_by structural decl => decl

end

end Draft

end ExiSchema
