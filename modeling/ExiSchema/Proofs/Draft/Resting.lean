import ExiSchema.Proofs.Draft.Reaching
import ExiSchema.Proofs.Model.Mentions

/-!
The walk over a type whose named parts have been registered. Of those it takes the grammars that are
there, so it registers no type, declares no global element and puts nothing off.
-/

set_option autoImplicit false

namespace ExiSchema

namespace Draft

variable {d d' e : Draft}

/-- Types and global elements are registered as before, and nothing more has been put off. -/
structure Rested (d d' : Draft) : Prop where
  types : d'.types = d.types
  globals : d'.globals = d.globals
  pending : d'.pending = d.pending
  any : (∀ id, d.anyType = some id → d.Holds id .anything) →
    ∀ id, d'.anyType = some id → d'.Holds id .anything

theorem Rested.refl (d : Draft) : d.Rested d := ⟨rfl, rfl, rfl, id⟩

theorem Rested.trans (first : d.Rested d') (second : d'.Rested e) : d.Rested e :=
  ⟨second.types.trans first.types, second.globals.trans first.globals,
    second.pending.trans first.pending, fun any => second.any (first.any any)⟩

theorem Adds.rested (adds : d.Adds d') : d.Rested d' := by
  have frame := adds.frame
  refine ⟨frame ▸ rfl, frame ▸ rfl, frame ▸ rfl, fun any id here => adds.holds (any id ?_)⟩
  rw [frame] at here
  exact here

/-- The type is not being compiled, and if it has a name, that is registered. -/
def Settled (d : Draft) (t : TypeDef) : Prop :=
  ∀ name, t.name? = some name → name ∉ d.active ∧ ∃ pair, d.types.find? name = some pair

theorem Settled.keep {t : TypeDef} (settled : d.Settled t) (walked : d.Walked d')
    (rested : d.Rested d') : d'.Settled t := by
  intro name named
  rw [walked.active, rested.types]
  exact settled name named

theorem Settled.isActive {t : TypeDef} (settled : d.Settled t) : d.isActive t = false := by
  unfold Draft.isActive
  split
  · next name named => exact Bool.not_eq_true _ ▸ mt List.contains_iff_mem.1 (settled name named).1
  · rfl

end Draft

open Draft

/-- If the action succeeds, what is registered has not changed. -/
def Rests {α : Type} (action : Drafting α) (d : Draft) : Prop :=
  d.store.Sound → Yields action d (fun _ d' => d.Rested d') fun _ _ => True

namespace Rests

variable {α β γ : Type} {d : Draft} {action : Drafting α} {next : α → Drafting β}
  {M : α → Draft → Prop}

theorem pure {a : α} : Rests (pure a) d := fun _ => .refl d

theorem throw {fault : Fault} : Rests (throw fault : Drafting α) d := fun _ => trivial

theorem get_bind {next : Draft → Drafting β} (rest : Rests (next d) d) : Rests (get >>= next) d :=
  rest

theorem of_adds (spec : d.store.Sound →
    Yields action d (fun _ d' => d.Adds d') fun _ d' => d.Adds d') : Rests action d :=
  fun sound => (spec sound).mono (fun _ _ adds => adds.rested) fun _ _ _ => trivial

theorem of_makes {R : Draft → α → γ → Prop} {built : Naming → Except Fault γ}
    (spec : Makes action d R built) : Rests action d := of_adds spec.adds

theorem bind (walks : Walks action d M) (first : Rests action d)
    (rest : ∀ a d', d.Walked d' → d.Rested d' → M a d' → Rests (next a) d') :
    Rests (action >>= next) d := by
  intro sound
  refine (((walks sound).and (first sound)).mono_fails fun _ _ _ => trivial).bind ?_
  rintro a d' ⟨⟨walked, here⟩, rested⟩
  exact (rest a d' walked rested here (walked.grows.sound sound)).mono
    (fun _ _ more => rested.trans more) fun _ _ _ => trivial

theorem bind_makes {R : Draft → α → γ → Prop} {built : Naming → Except Fault γ}
    (spec : Makes action d R built)
    (rest : ∀ a d', d.Walked d' → d.Rested d' → (∃ c, R d' a c) → Rests (next a) d') :
    Rests (action >>= next) d :=
  bind (.of_makes spec) (of_makes spec)
    fun a d' walked rested ⟨_, c, here, _⟩ => rest a d' walked rested ⟨c, here⟩

theorem bind_take {take : Drafting γ} {next : γ → Drafting β} {M : γ → Draft → Prop}
    (walks : Walks action d fun _ d' => ∃ c, take d' = .ok c { d' with stack := d.stack } ∧
      M c { d' with stack := d.stack })
    (first : Rests action d) (rest : ∀ c d', M c d' → Rests (next c) d') :
    Rests (action >>= fun _ => take >>= next) d := by
  refine bind walks first fun a d' _ _ ⟨c, taken, here⟩ sound => ?_
  have run : (take >>= next) d' = next c { d' with stack := d.stack } := by
    simp only [Bind.bind, EStateM.bind, taken]
  rw [Yields, run]
  exact (rest c _ here sound).mono
    (fun _ _ more => ⟨more.types, more.globals, more.pending, more.any⟩) fun _ _ _ => trivial

theorem build_push {action : Drafting GrammarId} {built : Naming → Except Fault Grammar}
    (spec : Makes action d Holds built) : Rests (action >>= push) d :=
  bind_makes spec fun _ _ _ _ _ _ => ⟨rfl, rfl, rfl, id⟩

end Rests

namespace Draft

variable {d : Draft}

theorem rests_onceFor {name : Option QName} {build : Drafting GrammarPair}
    (registered : ∀ n, name = some n → ∃ pair, d.types.find? n = some pair)
    (spec : Rests build d) : Rests (onceFor name build) d := by
  cases name with
  | none => exact spec
  | some name =>
    obtain ⟨pair, found⟩ := registered name rfl
    refine .get_bind ?_
    rw [found]
    exact .pure

theorem rests_whileActive {α : Type} {name : QName} {action : Drafting α}
    (spec : Rests action { d with active := name :: d.active }) : Rests (whileActive name action) d := by
  refine fun sound => yields_whileActive_iff.2 ((spec sound).mono_ok fun _ _ rested => ?_)
  exact ⟨rested.types, rested.globals, rested.pending, rested.any⟩

theorem rests_anyTypeGrammar : Rests anyTypeGrammar d := by
  refine .get_bind ?_
  split
  · exact .pure
  · refine fun sound => ((makes_anyContent sound).mono_fails
      fun _ _ _ => trivial).bind ?_
    rintro id d' ⟨adds, g, here, eq⟩
    cases eq _ d'.uris.fits_naming
    refine ⟨adds.rested.types, adds.rested.globals, adds.rested.pending, fun _ id' same => ?_⟩
    cases same
    exact here

theorem rests_declareLocal (name : NameRef) (type : GrammarId) :
    Rests (declareLocal name type) d := by
  refine .get_bind ?_
  split
  · exact .pure
  · exact .bind_makes (makes_forElement type) fun _ _ _ _ _ _ => ⟨rfl, rfl, rfl, id⟩

theorem rests_unless {α : Type} {allowed : Bool} {fault : Fault} {next : Unit → Drafting α}
    (rest : Rests (next ()) d) :
    Rests (if allowed = true then next () else throw fault >>= next) d := by
  split
  · exact rest
  · exact .throw

-- By recursion on the type. Every part inside it is `Settled` and stays so along the walk, since the
-- walk before the part has registered nothing.
mutual

theorem rests_typeGrammars : ∀ (t : TypeDef) (d : Draft), (∀ t' ∈ t.types, d.Settled t') →
    Rests (typeGrammars t) d
  | .simple name variety builtIn, d, settled => by
    rw [typeGrammars]
    exact rests_onceFor (fun n named => (settled _ List.mem_cons_self n named).2)
      (.of_makes (makes_varietyGrammars {} none variety builtIn))
  | .complex name attributes wildcard content, d, settled => by
    have inside := fun t' mem => settled t' (List.mem_cons_of_mem _ mem)
    rw [typeGrammars]
    refine rests_onceFor (fun n named => (settled _ List.mem_cons_self n named).2) ?_
    refine .bind_makes (makes_attributesOf attributes) fun uses d₁ walked rested ⟨gs, usesHere⟩ => ?_
    refine .bind (walks_contentGrammar content d₁) (rests_contentGrammar content d₁
      fun t' mem => (inside t' mem).keep walked rested) fun id d₂ walked₂ _ ⟨_, g, here, _⟩ => ?_
    exact .of_makes (makes_complexPair wildcard
      (usesHere.imp fun _ _ known => walked₂.grows.grammars known) here)
termination_by structural t => t

theorem rests_contentGrammar : ∀ (c : Content) (d : Draft),
    (∀ t ∈ typesOf c.elements, d.Settled t) → Rests (contentGrammar c) d
  | .empty, d, _ => .of_makes makes_emptyContent
  | .simple builtIn, d, _ => .of_makes (makes_simpleContent builtIn)
  | .elementOnly particle, d, settled => by
    rw [contentGrammar]
    have spec : Rests (placeParticle particle >>= fun _ => pop >>= pure) d :=
      .bind_take (M := fun _ _ => True) ((walks_placeParticle particle d).mono
        fun _ d' _ ⟨id, top, _⟩ => ⟨id, pop_eq top, trivial⟩)
        (rests_placeParticle particle d settled) fun _ _ _ => .pure
    rwa [bind_pure] at spec
  | .mixed particle, d, settled => by
    rw [contentGrammar]
    exact .bind_take (M := fun _ _ => True) ((walks_placeParticle particle d).mono
      fun _ d' _ ⟨id, top, _⟩ => ⟨id, pop_eq top, trivial⟩)
      (rests_placeParticle particle d settled) fun id d' _ => .of_makes (makes_mixed id)
termination_by structural c => c

theorem rests_placeParticle : ∀ (p : Particle) (d : Draft),
    (∀ t ∈ typesOf p.elements, d.Settled t) → Rests (placeParticle p) d
  | ⟨minOccurs, maxOccurs, term⟩, d, settled => by
    rw [placeParticle]
    exact .bind_take (M := fun _ _ => True) ((walks_placeTerm term d).mono
      fun _ d' _ ⟨id, top, _⟩ => ⟨id, pop_eq top, trivial⟩)
      (rests_placeTerm term d settled) fun id d' _ =>
        .build_push (makes_particle minOccurs maxOccurs id)
termination_by structural p => p

theorem rests_placeTerm : ∀ (term : Term) (d : Draft),
    (∀ t ∈ typesOf term.elements, d.Settled t) → Rests (placeTerm term) d
  | .element decl, d, settled => by
    rw [placeTerm]
    exact .bind (walks_meetElement decl d) (rests_meetElement decl d settled)
      fun _ _ _ _ _ => .build_push (makes_elementTerm decl.name)
  | .wildcard wildcard, d, _ => by
    rw [placeTerm]
    exact .build_push (makes_wildcardTerm wildcard)
  | .group compositor particles, d, settled => by
    rw [placeTerm]
    exact .bind_take (M := fun _ _ => True) ((walks_placeParticles particles d).mono
      fun _ d' _ ⟨ids, top, length, _⟩ => ⟨ids, length ▸ popMany_eq top, trivial⟩)
      (rests_placeParticles particles d settled) fun ids d' _ =>
        .build_push (makes_group compositor ids)
termination_by structural term => term

theorem rests_placeParticles : ∀ (ps : List Particle) (d : Draft),
    (∀ t ∈ typesOf (elementsOfAll ps), d.Settled t) → Rests (placeParticles ps) d
  | [], d, _ => by
    rw [placeParticles]
    exact .pure
  | p :: ps, d, settled => by
    rw [elementsOfAll, typesOf_append] at settled
    obtain ⟨first, rest⟩ := List.forall_mem_append.1 settled
    rw [placeParticles]
    exact .bind (walks_placeParticle p d) (rests_placeParticle p d first)
      fun _ d₁ walked rested _ => rests_placeParticles ps d₁
        fun t mem => (rest t mem).keep walked rested
termination_by structural ps => ps

theorem rests_meetElement : ∀ (decl : ElementDecl) (d : Draft),
    (∀ t ∈ typesOf (decl :: decl.inner), d.Settled t) → Rests (meetElement decl) d
  | ⟨name, substitutes, none⟩, d, _ => by
    rw [meetElement]
    refine rests_unless ?_
    refine .bind_makes (makes_enterName name) fun ref d₁ _ _ _ => ?_
    refine .bind walks_anyTypeGrammar rests_anyTypeGrammar fun id d₂ _ _ _ => ?_
    exact .bind (walks_declareLocal ref id) (rests_declareLocal ref id) fun _ _ _ _ _ => .pure
  | ⟨name, substitutes, some type⟩, d, settled => by
    rw [meetElement]
    refine rests_unless ?_
    refine .bind_makes (makes_enterName name) fun ref d₁ walked rested _ => .get_bind ?_
    have settled : ∀ t ∈ type.types, d₁.Settled t :=
      fun t mem => (settled t mem).keep walked rested
    rw [(settled type List.mem_cons_self).isActive, if_neg Bool.false_ne_true]
    refine .bind (walks_typeGrammars type d₁) (rests_typeGrammars type d₁ settled)
      fun pair d₂ _ _ _ => ?_
    exact .bind (walks_declareLocal ref pair.grammar) (rests_declareLocal ref pair.grammar)
      fun _ _ _ _ _ => .pure
termination_by structural decl => decl

end

end Draft

end ExiSchema
