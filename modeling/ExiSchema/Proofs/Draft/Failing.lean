import ExiSchema.Compiled
import ExiSchema.Proofs.Draft.Canonical
import ExiSchema.Proofs.Draft.Registry
import ExiSchema.Proofs.Sorted.Elements

/-!
Why a compilation fails. Everything that the walk over a type model looks up is there, so it comes to
nothing but faults of the model's own parts; and a draft that is in order can be moved to canonical
rows.
-/

set_option autoImplicit false

namespace ExiSchema

open Draft

/-- Whatever comes of the action, the draft stays in order. A failure is for lack of memory or has
one of the given faults. -/
def Accounts {α : Type} (F : List Fault) (action : Drafting α) (d : Draft) (ok : α → Draft → Prop) :
    Prop :=
  d.store.Sound → d.Orderly F →
    Yields action d (fun a d' => d'.Orderly F ∧ ok a d') fun f d' => d'.Orderly F ∧ Excused F f

namespace Accounts

variable {α β γ : Type} {F : List Fault} {d : Draft} {action : Drafting α} {next : α → Drafting β}
  {M N : α → Draft → Prop} {Q : β → Draft → Prop}

theorem mono {N' : α → Draft → Prop} (spec : Accounts F action d N)
    (weaker : ∀ a d', N a d' → N' a d') : Accounts F action d N' :=
  fun sound orderly => (spec sound orderly).mono_ok
    (fun a d' good => ⟨good.1, weaker a d' good.2⟩)

theorem pure {b : β} (here : Q b d) : Accounts F (pure b) d Q := fun _ orderly => ⟨orderly, here⟩

theorem throw {fault : Fault} (excused : Excused F fault) : Accounts F (throw fault) d Q :=
  fun _ orderly => ⟨orderly, excused⟩

theorem get_bind {next : Draft → Drafting β} (rest : Accounts F (next d) d Q) :
    Accounts F (get >>= next) d Q := rest

theorem modify {f : Draft → Draft} {Q : Unit → Draft → Prop}
    (kept : d.Orderly F → (f d).Orderly F) (here : Q () (f d)) : Accounts F (modify f) d Q :=
  fun _ orderly => ⟨kept orderly, here⟩

theorem of_orderly (spec : d.Orderly F → Accounts F action d N) : Accounts F action d N :=
  fun sound orderly => spec orderly sound orderly

theorem bind (walks : Walks action d M) (first : Accounts F action d N)
    (rest : ∀ a d', d.Walked d' → M a d' → N a d' → Accounts F (next a) d' Q) :
    Accounts F (action >>= next) d Q := by
  intro sound orderly
  refine (((walks sound).and (first sound orderly)).mono_fails
    fun _ _ bad => bad.2).bind ?_
  rintro a d' ⟨⟨walked, here⟩, kept, known⟩
  exact rest a d' walked here known (walked.grows.sound sound) kept

theorem of_makes {R : Draft → α → γ → Prop} {built : Naming → Except Fault γ}
    (spec : Makes action d R built) (cause : ∀ ν f, built ν = .error f → Excused F f) :
    Accounts F action d fun a d' => ∃ c, R d' a c := by
  intro sound orderly
  refine (spec sound).mono ?_ ?_
  · rintro a d' ⟨adds, c, here, _⟩
    exact ⟨orderly.adds adds, c, here⟩
  · rintro f d' ⟨adds, memory | eq⟩
    · exact ⟨orderly.adds adds, .inl memory⟩
    · exact ⟨orderly.adds adds, cause _ f (eq _ d'.uris.fits_naming)⟩

theorem bind_makes {R : Draft → α → γ → Prop} {built : Naming → Except Fault γ}
    (spec : Makes action d R built) (cause : ∀ ν f, built ν = .error f → Excused F f)
    (rest : ∀ a c d', d.Walked d' → R d' a c → Accounts F (next a) d' Q) :
    Accounts F (action >>= next) d Q :=
  bind (.of_makes spec) (of_makes spec cause)
    fun a d' walked ⟨_, c, here, _⟩ _ => rest a c d' walked here

theorem bind_take {take : Drafting γ} {next : γ → Drafting β} {M : γ → Draft → Prop}
    (walks : Walks action d fun _ d' => ∃ c, take d' = .ok c { d' with stack := d.stack } ∧
      M c { d' with stack := d.stack })
    (first : Accounts F action d N) (rest : ∀ c d', M c d' → Accounts F (next c) d' Q) :
    Accounts F (action >>= fun _ => take >>= next) d Q := by
  refine bind walks first fun a d' _ ⟨c, taken, here⟩ _ sound orderly => ?_
  have run : (take >>= next) d' = next c { d' with stack := d.stack } := by
    simp only [Bind.bind, EStateM.bind, taken]
  rw [Yields, run]
  exact rest c _ here sound (orderly.beside d.stack d'.active d'.skips)

theorem build_push {action : Drafting GrammarId} {built : Naming → Except Fault Grammar}
    (spec : Makes action d Holds built) (cause : ∀ ν f, built ν = .error f → Excused F f) :
    Accounts F (action >>= push) d fun _ _ => True :=
  bind_makes spec cause fun id _ d' _ _ _ orderly =>
    ⟨orderly.beside (id :: d'.stack) d'.active d'.skips, trivial⟩

theorem grammar_bind {id : GrammarId} {next : Grammar → Drafting β} (known : d.Knows id)
    (rest : ∀ g, d.Holds id g → Accounts F (next g) d Q) :
    Accounts F (grammar id >>= next) d Q := by
  obtain ⟨g, here⟩ := known
  exact fun sound orderly => yields_reads_bind here.grammar_eq_ok (rest g here sound orderly)

end Accounts

theorem Excused.of_ok {α : Type} {F : List Fault} {a : α} {f : Fault}
    (run : (.ok a : Except Fault α) = .error f) : Excused F f := by cases run

theorem Excused.of_mem {F faults : List Fault} {f : Fault} (among : faults ⊆ F) (mem : f ∈ faults) :
    Excused F f := .inr (among mem)

theorem excused_of_check {α : Type} {F : List Fault} {f : Fault} {q : QName} {a : α}
    (among : q.faults ⊆ F) (run : (do q.check; return a : Except Fault α) = .error f) :
    Excused F f := by
  rcases except_bind_eq_error run with bad | ⟨_, _, done⟩
  · exact .of_mem among (QName.mem_faults bad)
  · cases done

namespace Draft

variable {d : Draft} {F : List Fault}

theorem accounts_declareType {name : QName} {pair : GrammarPair} (known : d.KnowsPair pair) :
    Accounts F (declareType name pair) d fun _ _ => True :=
  .grammar_bind known.1 fun _ _ => .grammar_bind known.2 fun _ _ =>
    .modify (fun orderly => orderly.declareType known) trivial

theorem accounts_whileActive {α : Type} {name : QName} {action : Drafting α} {Q : α → Draft → Prop}
    (spec : Accounts F action { d with active := name :: d.active } fun a d' =>
      Q a { d' with active := d'.active.tail }) :
    Accounts F (whileActive name action) d Q := by
  intro sound orderly
  have inner := spec sound (orderly.beside d.stack (name :: d.active) d.skips)
  have back (d' : Draft) (kept : d'.Orderly F) : Orderly F { d' with active := d'.active.tail } :=
    kept.beside d'.stack d'.active.tail d'.skips
  exact yields_whileActive_iff.2 (inner.mono (fun _ d' good => ⟨back d' good.1, good.2⟩)
    fun _ d' bad => ⟨back d' bad.1, bad.2⟩)

theorem accounts_onceFor {name : Option QName} {build : Drafting GrammarPair}
    (idle : ∀ n, name = some n → d.active.contains n = false)
    (walks : ∀ d, Walks build d fun _ d' => d'.stack = d.stack)
    (spec : ∀ d, Accounts F build d fun pair d' => d'.KnowsPair pair) :
    Accounts F (onceFor name build) d fun pair d' => d'.KnowsPair pair := by
  cases name with
  | none => exact spec d
  | some name =>
    refine .of_orderly fun orderly => .get_bind ?_
    split
    · next pair found => exact .pure (orderly.types name pair found)
    · rw [idle name rfl]
      refine .bind (walks_whileActive (Q := fun _ d' => d'.stack = d.stack) (walks _))
        (accounts_whileActive (Q := fun pair d' => d'.KnowsPair pair) (spec _))
        fun pair d' _ _ known => ?_
      refine .bind (walks_declareType name pair) (accounts_declareType known)
        fun _ d'' walked _ _ => .pure (known.grow walked.grows)

theorem accounts_varietyGrammars {builtIn : String} {variety : Variety}
    (among : variety.faults builtIn ⊆ F) :
    Accounts F (varietyGrammars builtIn variety) d fun pair d' => d'.KnowsPair pair := by
  refine (Accounts.of_makes (makes_varietyGrammars {} none variety builtIn) fun ν f run => ?_).mono
    fun _ _ ⟨_, whole, empty⟩ => ⟨⟨_, whole⟩, _, empty⟩
  cases variety with
  | atomic =>
    rcases except_bind_eq_error run with bad | ⟨_, _, done⟩
    · exact .of_mem among (Datatype.mem_faults bad)
    · cases done
  | list _ | union _ =>
    cases run
    exact .of_mem among (List.mem_singleton.2 rfl)

theorem excused_of_attributes {options : Options} {ν : Naming} {attributes : List AttributeUse}
    {f : Fault} (among : attributes.flatMap AttributeUse.faults ⊆ F)
    (run : (orderedUses options attributes).mapM (AttributeUse.grammar ν) = .error f) :
    Excused F f := by
  obtain ⟨u, mem, bad⟩ := except_mapM_eq_error run
  exact .of_mem among
    (List.mem_flatMap.2 ⟨u, mem_orderedUses.1 mem, AttributeUse.mem_faults bad⟩)

theorem excused_of_complexPair {ν : Naming} {wildcard : Option Wildcard} {uses : List Grammar}
    {g : Grammar} {f : Fault} (among : wildcard.elim [] Wildcard.faults ⊆ F)
    (run : (do
      let events ← wildcard.mapM ν.attributeEvents
      let grammar ← Grammar.complex uses events g
      let empty ← Grammar.complex uses events .endOnly
      return (grammar, empty)) = Except.error f) : Excused F f := by
  rcases except_bind_eq_error run with bad | ⟨events, _, run⟩
  · exact .of_mem among (Wildcard.mem_faults_of_attributes bad)
  rcases except_bind_eq_error run with bad | ⟨_, _, run⟩
  · exact .inl (Grammar.complex_error bad)
  rcases except_bind_eq_error run with bad | ⟨_, _, done⟩
  · exact .inl (Grammar.complex_error bad)
  · cases done

theorem accounts_anyTypeGrammar : Accounts F anyTypeGrammar d fun id d' => d'.Knows id := by
  refine .of_orderly fun orderly => .get_bind ?_
  split
  · next id here => exact .pure (orderly.anyType id here)
  · refine .bind_makes makes_anyContent (fun _ _ => .of_ok) fun id g d' _ here => ?_
    refine .bind (M := fun _ d'' => d''.store = d'.store) (N := fun _ _ => True)
      (.modify ⟨.refl _, List.suffix_refl _, rfl, rfl⟩ rfl)
      (.modify (fun orderly => orderly.declareAny ⟨g, here⟩) trivial) fun _ d'' walked _ _ => ?_
    exact .pure ⟨g, walked.grows.grammars here⟩

theorem accounts_declareLocal {name : NameRef} {type : GrammarId} (names : d.Names name)
    (known : d.Knows type) : Accounts F (declareLocal name type) d fun _ _ => True := by
  refine .get_bind ?_
  split
  · exact .pure trivial
  · obtain ⟨g, here⟩ := known
    refine .bind_makes ((makes_forElement type).of_holds here) (fun _ _ => .of_ok)
      fun id g' d' walked _ => ?_
    refine .bind (M := fun _ _ => True) (N := fun _ _ => True)
      (.modify ⟨.refl _, List.suffix_refl _, rfl, rfl⟩ trivial)
      (.modify (fun orderly => orderly.declareLocal (names.grow walked.grows)) trivial)
      fun _ _ _ _ _ => .pure trivial

theorem accounts_unless {α : Type} {substitutes : List QName} {next : Unit → Drafting α}
    {ok : α → Draft → Prop}
    (among : (if substitutes.isEmpty then [] else [Fault.notImplemented .substitutionGroups]) ⊆ F)
    (rest : Accounts F (next ()) d ok) :
    Accounts F (if substitutes.isEmpty = true then next ()
      else throw (.notImplemented .substitutionGroups) >>= next) d ok := by
  split
  · exact rest
  · next refused =>
    rw [if_neg refused] at among
    exact .throw (.of_mem among (List.mem_singleton.2 rfl))

theorem isActive_eq_false (idle : d.active = []) (t : TypeDef) : d.isActive t = false := by
  unfold isActive
  rw [idle]
  split <;> rfl

theorem idle_of_isActive {t : TypeDef} (idle : d.isActive t = false) :
    ∀ n, t.name? = some n → d.active.contains n = false := by
  intro n named
  rwa [isActive, named] at idle

-- By recursion on the type. An element whose type is being compiled is put off, so the fault of a type
-- that is asked for while it is compiled cannot come up.
mutual

theorem accounts_typeGrammars : ∀ (t : TypeDef) (d : Draft), d.isActive t = false → t.faults ⊆ F →
    Accounts F (typeGrammars t) d fun pair d' => d'.KnowsPair pair
  | .simple name variety builtIn, d, idle, among => by
    rw [typeGrammars]
    exact accounts_onceFor (idle_of_isActive idle) (fun d => walks_varietyGrammars builtIn variety)
      fun d => accounts_varietyGrammars among
  | .complex name attributes wildcard content, d, idle, among => by
    obtain ⟨outside, inside⟩ := List.append_subset.1 among
    obtain ⟨usesAmong, wildcardAmong⟩ := List.append_subset.1 outside
    have walks (d : Draft) := walks_typeGrammars (.complex none attributes wildcard content) d
    rw [typeGrammars] at walks ⊢
    refine accounts_onceFor (idle_of_isActive idle) walks fun d => ?_
    refine .bind_makes (makes_attributesOf attributes)
      (fun _ _ => excused_of_attributes usesAmong) fun uses gs d₁ _ usesHere => ?_
    refine .bind (walks_contentGrammar content d₁) (accounts_contentGrammar content d₁ inside)
      fun id d₂ walked ⟨_, g, here, _⟩ _ => ?_
    have usesHere : d₂.HoldsAll uses gs := usesHere.imp fun _ _ h => walked.grows.grammars h
    exact (Accounts.of_makes (makes_complexPair wildcard usesHere here)
      fun _ _ => excused_of_complexPair wildcardAmong).mono
        fun _ _ ⟨_, whole, empty⟩ => ⟨⟨_, whole⟩, _, empty⟩
termination_by structural t => t

theorem accounts_contentGrammar : ∀ (c : Content) (d : Draft), c.faults ⊆ F →
    Accounts F (contentGrammar c) d fun _ _ => True
  | .empty, d, _ =>
    (Accounts.of_makes makes_emptyContent fun _ _ => .of_ok).mono fun _ _ _ => trivial
  | .simple builtIn, d, among => by
    refine (Accounts.of_makes (makes_simpleContent builtIn) fun ν f run => ?_).mono
      fun _ _ _ => trivial
    rcases except_bind_eq_error run with bad | ⟨_, _, done⟩
    · exact .of_mem among (Datatype.mem_faults bad)
    · cases done
  | .elementOnly particle, d, among => by
    rw [contentGrammar]
    have spec : Accounts F (placeParticle particle >>= fun _ => pop >>= pure) d fun _ _ => True :=
      .bind_take (M := fun _ _ => True) ((walks_placeParticle particle d).mono
        fun _ d' _ ⟨id, top, _⟩ => ⟨id, pop_eq top, trivial⟩)
        (accounts_placeParticle particle d among) fun _ _ _ => .pure trivial
    rwa [bind_pure] at spec
  | .mixed particle, d, among => by
    rw [contentGrammar]
    refine .bind_take (M := fun id d' => d'.Knows id) ((walks_placeParticle particle d).mono
      fun _ d' _ ⟨id, top, ⟨g, here, _⟩, _⟩ => ⟨id, pop_eq top, g, here⟩)
      (accounts_placeParticle particle d among) fun id d' ⟨g, here⟩ => ?_
    exact (Accounts.of_makes ((makes_mixed id).of_holds here) fun _ _ => .of_ok).mono
      fun _ _ _ => trivial
termination_by structural c => c

theorem accounts_placeParticle : ∀ (p : Particle) (d : Draft), p.faults ⊆ F →
    Accounts F (placeParticle p) d fun _ _ => True
  | ⟨minOccurs, maxOccurs, term⟩, d, among => by
    obtain ⟨bounds, inside⟩ := List.append_subset.1 among
    rw [placeParticle]
    refine .bind_take (M := fun id d' => d'.Knows id) ((walks_placeTerm term d).mono
      fun _ d' _ ⟨id, top, ⟨g, here, _⟩, _⟩ => ⟨id, pop_eq top, g, here⟩)
      (accounts_placeTerm term d inside) fun id d' ⟨g, here⟩ => ?_
    exact .build_push ((makes_particle minOccurs maxOccurs id).of_holds here) fun _ _ run =>
      (Grammar.repeated_error (p := ⟨minOccurs, maxOccurs, term⟩) run).mono bounds
termination_by structural p => p

theorem accounts_placeTerm : ∀ (term : Term) (d : Draft), term.faults ⊆ F →
    Accounts F (placeTerm term) d fun _ _ => True
  | .element decl, d, among => by
    rw [placeTerm]
    refine .bind (walks_meetElement decl d) (accounts_meetElement decl d among)
      fun _ d₁ _ _ _ => ?_
    exact .build_push (makes_elementTerm decl.name) fun _ _ =>
      excused_of_check (List.Subset.trans decl.faults_name among)
  | .wildcard wildcard, d, among => by
    rw [placeTerm]
    refine .build_push (makes_wildcardTerm wildcard) fun _ _ run => ?_
    rcases except_bind_eq_error run with bad | ⟨_, _, done⟩
    · exact .of_mem among (Wildcard.mem_faults_of_elements bad)
    · cases done
  | .group compositor particles, d, among => by
    rw [placeTerm]
    refine .bind_take (M := fun ids d' => ∃ gs, d'.HoldsAll ids gs)
      ((walks_placeParticles particles d).mono
        fun _ d' _ ⟨ids, top, length, _, gs, here, _⟩ => ⟨ids, length ▸ popMany_eq top, gs, here⟩)
      (accounts_placeParticles particles d among) fun ids d' ⟨gs, here⟩ => ?_
    exact .build_push ((makes_group compositor ids).of_holdsAll here) fun _ _ run =>
      .inl (Grammar.grouped_error run)
termination_by structural term => term

theorem accounts_placeParticles : ∀ (ps : List Particle) (d : Draft), faultsOfAll ps ⊆ F →
    Accounts F (placeParticles ps) d fun _ _ => True
  | [], d, _ => by
    rw [placeParticles]
    exact .pure trivial
  | p :: ps, d, among => by
    obtain ⟨first, rest⟩ := List.append_subset.1 among
    rw [placeParticles]
    exact .bind (walks_placeParticle p d) (accounts_placeParticle p d first)
      fun _ d₁ _ _ _ => accounts_placeParticles ps d₁ rest
termination_by structural ps => ps

theorem accounts_meetElement : ∀ (decl : ElementDecl) (d : Draft), decl.faults ⊆ F →
    Accounts F (meetElement decl) d fun _ _ => True
  | ⟨name, substitutes, none⟩, d, among => by
    obtain ⟨alone, named⟩ := List.append_subset.1 among
    rw [meetElement]
    refine accounts_unless alone ?_
    refine .bind_makes (makes_enterName name) (fun _ _ => excused_of_check named)
      fun ref _ d₁ _ ⟨_, found⟩ => ?_
    refine .bind walks_anyTypeGrammar accounts_anyTypeGrammar fun id d₂ walked _ known => ?_
    exact .bind (walks_declareLocal ref id)
      (accounts_declareLocal ((names_of_find? found).grow walked.grows) known)
      fun _ _ _ _ _ => .pure trivial
  | ⟨name, substitutes, some type⟩, d, among => by
    obtain ⟨outside, inside⟩ := List.append_subset.1 among
    obtain ⟨alone, named⟩ := List.append_subset.1 outside
    rw [meetElement]
    refine accounts_unless alone ?_
    refine .bind_makes (makes_enterName name) (fun _ _ => excused_of_check named)
      fun ref _ d₁ _ ⟨_, found⟩ => .get_bind ?_
    have names := names_of_find? found
    split
    · exact .modify (fun orderly => orderly.putOff names inside) trivial
    · next idle =>
      refine .bind (walks_typeGrammars type d₁)
        (accounts_typeGrammars type d₁ (Bool.not_eq_true _ ▸ idle) inside)
        fun pair d₂ walked _ known => ?_
      exact .bind (walks_declareLocal ref pair.grammar)
        (accounts_declareLocal (names.grow walked.grows) known.1) fun _ _ _ _ _ => .pure trivial
termination_by structural decl => decl

end

theorem accounts_elementGrammar {decl : ElementDecl} (idle : d.active = [])
    (among : decl.globalFaults ⊆ F) :
    Accounts F (elementGrammar decl) d fun id d' => d'.Knows id := by
  have copies {id : GrammarId} {d' : Draft} (known : d'.Knows id) :
      Accounts F (forElement id) d' fun id d' => d'.Knows id := by
    obtain ⟨g, here⟩ := known
    exact .of_makes ((makes_forElement id).of_holds here) fun _ _ => .of_ok
  unfold elementGrammar
  split
  · next type here =>
    have inside : type.faults ⊆ F := by
      rw [ElementDecl.globalFaults, here] at among
      exact List.Subset.trans (List.subset_append_left _ _) among
    exact .bind (walks_typeGrammars type d)
      (accounts_typeGrammars type d (isActive_eq_false idle type) inside)
      fun _ _ _ _ known => copies known.1
  · exact .bind walks_anyTypeGrammar accounts_anyTypeGrammar fun _ _ _ _ known => copies known

theorem accounts_declareGlobal {name : QName} {id : GrammarId} (known : d.Knows id)
    (among : name.faults ⊆ F) : Accounts F (declareGlobal name id) d fun _ _ => True :=
  .grammar_bind known fun _ _ => .bind_makes (makes_enterName name)
    (fun _ _ => excused_of_check among) fun _ _ _ _ ⟨_, found⟩ =>
      .modify (fun orderly => orderly.declareGlobal (names_of_find? found)) trivial

/-- What a part has left on the stack is taken off if the part is left out. -/
theorem walks_orSkip {α : Type} {part : Part} {action : Drafting α} {ok : α → Draft → Prop}
    (spec : Walks action d ok) (stack : ∀ a d', ok a d' → d'.stack = d.stack) :
    Walks (orSkip part action) d fun _ d' => d'.stack = d.stack := by
  refine fun sound => yields_orSkip_of ((spec sound).mono_ok fun a d' good =>
    ⟨good.1, stack a d' good.2⟩) (fun f d' walked _ _ => ?_) fun _ _ walked _ => walked
  obtain ⟨more, left⟩ := walked.stack
  have back : d'.stack.drop (d'.stack.length - d.stack.length) = d.stack := by
    rw [← left, List.length_append, Nat.add_sub_cancel, List.drop_left]
  refine ⟨⟨walked.grows, ?_, walked.active, walked.options⟩, back⟩
  exact back.symm ▸ List.suffix_refl d.stack

theorem accounts_orSkip {α : Type} {part : Part} {action : Drafting α} {ok : α → Draft → Prop}
    (spec : Accounts F action d ok) :
    Accounts F (orSkip part action) d fun a d' => ∀ x, a = some x → ok x d' := by
  refine fun sound orderly => yields_orSkip_of ((spec sound orderly).mono_ok fun a d' good => ?_)
    (fun f d' bad _ _ => ?_) fun _ _ bad _ => bad
  · exact ⟨good.1, fun x same => Option.some.inj same ▸ good.2⟩
  · exact ⟨bad.1.beside _ _ _, fun x none => by cases none⟩

theorem walks_late (e : PendingElement) :
    Walks (do declareLocal e.name (← typeGrammars e.type).grammar) d
      fun _ d' => d'.stack = d.stack :=
  (walks_typeGrammars e.type d).bind fun pair _ _ stack =>
    (walks_declareLocal e.name pair.grammar).mono fun _ _ _ more => more.trans stack

theorem accounts_late {e : PendingElement} (idle : d.active = []) (names : d.Names e.name)
    (among : e.type.faults ⊆ F) :
    Accounts F (do declareLocal e.name (← typeGrammars e.type).grammar) d fun _ _ => True :=
  .bind (walks_typeGrammars e.type d)
    (accounts_typeGrammars e.type d (isActive_eq_false idle e.type) among)
    fun _ _ walked _ known => accounts_declareLocal (names.grow walked.grows) known.1

theorem walks_settle : ∀ (es : List PendingElement) (d : Draft),
    Walks (settle es) d fun _ d' => d'.stack = d.stack
  | [], d => .pure rfl
  | e :: es, d => by
    rw [settle]
    exact (walks_orSkip (walks_late e) fun _ _ same => same).bind
      fun _ d₁ _ stack => (walks_settle es d₁).mono fun _ _ _ more => more.trans stack

theorem accounts_settle : ∀ (es : List PendingElement) (d : Draft), d.active = [] →
    (∀ e ∈ es, d.Names e.name ∧ e.type.faults ⊆ F) → Accounts F (settle es) d fun _ _ => True
  | [], d, _, _ => .pure trivial
  | e :: es, d, idle, known => by
    obtain ⟨⟨names, among⟩, rest⟩ := List.forall_mem_cons.1 known
    rw [settle]
    refine .bind (walks_orSkip (walks_late e) fun _ _ same => same)
      (accounts_orSkip (accounts_late idle names among)) fun _ d₁ walked _ _ => ?_
    exact accounts_settle es d₁ (walked.active.trans idle)
      fun e' mem => ⟨(rest e' mem).1.grow walked.grows, (rest e' mem).2⟩

theorem walks_settlePending : Walks settlePending d fun _ d' => d'.stack = d.stack :=
  fun sound =>
    have inner := walks_settle d.pending { d with pending := [] } sound
    have back {d' : Draft} (walked : { d with pending := [] }.Walked d') : d.Walked d' :=
      ⟨walked.grows, walked.stack, walked.active, walked.options⟩
    inner.mono (fun _ _ good => ⟨back good.1, good.2⟩) fun _ _ => back

theorem accounts_settlePending (idle : d.active = []) :
    Accounts F settlePending d fun _ _ => True := by
  intro sound orderly
  refine accounts_settle d.pending { d with pending := [] } idle orderly.pending sound
    ⟨orderly.types, orderly.anyType, orderly.globals, orderly.locals, ?_⟩
  simp

theorem walks_addTypes : ∀ (ts : List TypeDef) (d : Draft),
    Walks (addTypes ts) d fun _ d' => d'.stack = d.stack
  | [], d => .pure rfl
  | t :: ts, d => by
    rw [addTypes]
    exact (walks_orSkip (walks_typeGrammars t d) fun _ _ same => same).bind
      fun _ d₁ _ stack => (walks_addTypes ts d₁).mono fun _ _ _ more => more.trans stack

theorem accounts_addTypes : ∀ (ts : List TypeDef) (d : Draft), d.active = [] →
    ts.flatMap TypeDef.faults ⊆ F → Accounts F (addTypes ts) d fun _ _ => True
  | [], d, _, _ => .pure trivial
  | t :: ts, d, idle, among => by
    obtain ⟨first, rest⟩ := List.append_subset.1 (List.flatMap_cons ▸ among)
    rw [addTypes]
    refine .bind (walks_orSkip (walks_typeGrammars t d) fun _ _ same => same)
      (accounts_orSkip (accounts_typeGrammars t d (isActive_eq_false idle t) first))
      fun _ d₁ walked _ _ => accounts_addTypes ts d₁ (walked.active.trans idle) rest

theorem walks_addElements : ∀ (es : List ElementDecl) (d : Draft),
    Walks (addElements es) d fun _ d' => d'.stack = d.stack
  | [], d => .pure rfl
  | e :: es, d => by
    rw [addElements]
    refine (walks_orSkip (walks_elementGrammar e) fun _ _ same => same).bind
      fun id d₁ _ stack => ?_
    cases id with
    | none => exact (walks_addElements es d₁).mono fun _ _ _ more => more.trans stack
    | some id =>
      refine (walks_declareGlobal e.name id).bind fun _ d₂ _ stack' => ?_
      exact (walks_addElements es d₂).mono fun _ _ _ more => (more.trans stack').trans stack

theorem accounts_addElements : ∀ (es : List ElementDecl) (d : Draft), d.active = [] →
    es.flatMap ElementDecl.globalFaults ⊆ F → Accounts F (addElements es) d fun _ _ => True
  | [], d, _, _ => .pure trivial
  | e :: es, d, idle, among => by
    obtain ⟨first, rest⟩ := List.append_subset.1 (List.flatMap_cons ▸ among)
    rw [addElements]
    refine .bind (walks_orSkip (walks_elementGrammar e) fun _ _ same => same)
      (accounts_orSkip (accounts_elementGrammar idle first)) fun id d₁ walked _ known => ?_
    have idle₁ := walked.active.trans idle
    cases id with
    | none => exact accounts_addElements es d₁ idle₁ rest
    | some id =>
      have named : e.name.faults ⊆ F := List.Subset.trans (List.subset_append_right _ _) first
      exact .bind (walks_declareGlobal e.name id)
        (accounts_declareGlobal (known id rfl) named) fun _ d₂ walked₂ _ _ =>
          accounts_addElements es d₂ (walked₂.active.trans idle₁) rest

theorem canonical_eq_ok (tracked : d.store.Tracked) (globals : ∀ e ∈ d.globals, d.Names e.name)
    (locals : ∀ e ∈ d.locals, d.Names e.name) : ∃ c, d.canonical = .ok c := by
  obtain ⟨grammars, moved, _⟩ := tracked.moveAll
  have namedGlobals : ∀ e ∈ d.globals.toList.map fun e => (e.name, e.grammar),
      ∃ q, d.uris.resolve? e.1 = some q := by
    intro e mem
    obtain ⟨e', mem', rfl⟩ := List.mem_map.1 mem
    exact globals e' (Array.mem_toList_iff.1 mem')
  have namedLocals : ∀ e ∈ d.locals.toList.map fun e => (e.name, e.grammar),
      ∃ q, d.uris.resolve? e.1 = some q := by
    intro e mem
    obtain ⟨e', mem', rfl⟩ := List.mem_map.1 mem
    exact locals e' (Array.mem_toList_iff.1 mem')
  obtain ⟨globals, some⟩ := NamedElement.exists_sortedEntries namedGlobals
  obtain ⟨locals, some'⟩ := NamedElement.exists_sortedEntries namedLocals
  have moved : d.uris.sorted.mapping.moveAll d.grammars d.references.toList = .ok grammars := moved
  exact ⟨_, by simp only [canonical, moved, some, some']; rfl⟩

theorem walks_addSchema (s : Schema) : Walks (addSchema s) d fun _ d' => d'.stack = d.stack :=
  (walks_addTypes s.types d).bind fun _ d₁ _ stack =>
    (walks_addElements s.elements d₁).mono fun _ _ _ more => more.trans stack

theorem accounts_addSchema {s : Schema} (idle : d.active = []) (among : s.faults ⊆ F) :
    Accounts F (addSchema s) d fun _ _ => True := by
  obtain ⟨types, elements⟩ := List.append_subset.1 among
  exact .bind (walks_addTypes s.types d) (accounts_addTypes s.types d idle types)
    fun _ d₁ walked _ _ => accounts_addElements s.elements d₁ (walked.active.trans idle) elements

theorem accounts_finish (idle : d.active = []) (empty : d.stack = []) (tracked : d.store.Tracked) :
    Accounts F finish d fun _ _ => True := by
  refine .bind walks_settlePending (accounts_settlePending idle)
    fun _ d₁ walked stack _ => .of_orderly fun orderly => .get_bind ?_
  obtain ⟨c, moved⟩ := canonical_eq_ok (walked.grows.tracked tracked) orderly.globals orderly.locals
  rw [stack, empty, moved]
  exact .pure trivial

end Draft

namespace Schema

variable {s : Schema} {options : Options} {f : Fault}

theorem exists_error_of_compile (run : s.compile options = .error f) :
    ∃ d, (addSchema s >>= fun _ => finish) (start options) = .error f d := by
  unfold compile at run
  dsimp only at run
  split at run
  · cases run
  · next d ended =>
    cases run
    exact ⟨d, ended⟩

theorem excused_of_compile (run : s.compile options = .error f) : Excused s.faults f := by
  have spec : Accounts s.faults (addSchema s >>= fun _ => finish) (start options) fun _ _ => True :=
    .bind (walks_addSchema s) (accounts_addSchema rfl (List.Subset.refl _))
      fun _ d walked stack _ => accounts_finish walked.active stack
        (walked.grows.tracked Store.tracked_initial)
  obtain ⟨d, ended⟩ := exists_error_of_compile run
  exact ((spec (sound_start options) (orderly_start options)).fails_of_eq ended).2

/-- A compilation fails for lack of memory or with a fault of some part of the model. -/
theorem compile_error {s : Schema} {options : Options} {f : Fault}
    (run : s.compile options = .error f) :
    f = .memoryAllocation ∨ f ∈ s.faults ∧ s.Blames f :=
  (excused_of_compile run).imp_right fun mem => ⟨mem, s.blames_of_mem_faults mem⟩

/-- An element that has to stand twice and may stand once, inside a type. -/
def crossed : Schema :=
  ⟨[.complex (some ⟨"", "t"⟩) [] none
    (.elementOnly ⟨2, .bounded 1, .element ⟨⟨"", "a"⟩, [], none⟩⟩)], []⟩

theorem crossed_compile : crossed.compile {} = .error (.invalidOccurs 2 1) := by
  have fault : (match crossed.compile {} with
      | .ok _ => none
      | .error f => some f) = some (.invalidOccurs 2 1) := by decide +kernel
  cases run : crossed.compile {} with
  | ok c =>
    rw [run] at fault
    cases fault
  | error f =>
    rw [run] at fault
    cases fault
    rfl

theorem crossed_compile_error : crossed.compile {} = .error (.invalidOccurs 2 1) ∧
    Fault.invalidOccurs 2 1 ∈ crossed.faults ∧ crossed.Blames (.invalidOccurs 2 1) :=
  ⟨crossed_compile, (compile_error crossed_compile).resolve_left fun memory => by cases memory⟩

end Schema

end ExiSchema
