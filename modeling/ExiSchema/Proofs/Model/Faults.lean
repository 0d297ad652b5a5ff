import ExiSchema.Proofs.Model.Grammars
import ExiSchema.Proofs.Traversal
import ExiSchema.Schema.Faults

/-!
Why grammars of a model cannot be built. Whatever the rows of names, building fails with a fault that
a part of the model has by itself, or because a count outgrew 32 bits.
-/

set_option autoImplicit false

namespace ExiSchema

/-- For lack of memory, or with one of the given faults. -/
def Excused (faults : List Fault) (f : Fault) : Prop := f = .memoryAllocation ∨ f ∈ faults

theorem Excused.mono {faults faults' : List Fault} {f : Fault} (excused : Excused faults f)
    (more : faults ⊆ faults') : Excused faults' f := excused.imp_right fun mem => more mem

theorem Datatype.mem_faults {builtIn : String} {f : Fault} (run : check builtIn = .error f) :
    f ∈ faults builtIn := by
  unfold check at run
  split at run
  · cases run
  · next unknown =>
    cases run
    rw [faults, unknown, if_neg (by simp)]
    exact List.mem_singleton.2 rfl

theorem Label.mem_faults {text : String} {f : Fault} (run : ofText text = .error f) :
    f ∈ faults text := by
  unfold ofText ofText? at run
  split at run
  · cases run
  · next refused =>
    cases run
    split at refused
    · cases refused
    · next bad =>
      rw [faults, if_neg bad]
      exact List.mem_singleton.2 rfl

theorem QName.mem_faults {q : QName} {f : Fault} (run : q.check = .error f) : f ∈ q.faults := by
  rcases except_bind_eq_error run with uri | ⟨_, _, rest⟩
  · exact List.mem_append_left _ (Label.mem_faults uri)
  · rcases except_bind_eq_error rest with localName | ⟨_, _, done⟩
    · exact List.mem_append_right _ (Label.mem_faults localName)
    · cases done

theorem Naming.mem_faults_of_rows {ν : Naming} {uris : List String} {f : Fault}
    (run : ν.rows uris = .error f) : f ∈ (Wildcard.among uris).faults := by
  cases uris with
  | nil =>
    cases run
    exact List.mem_singleton.2 rfl
  | cons uri uris =>
    obtain ⟨text, mem, bad⟩ := except_mapM_eq_error run
    rcases except_bind_eq_error bad with refused | ⟨_, _, done⟩
    · exact List.mem_flatMap.2 ⟨text, mem, Label.mem_faults refused⟩
    · cases done

theorem Wildcard.mem_faults_of_elements {ν : Naming} {wildcard : Wildcard} {f : Fault}
    (run : ν.elementEvents wildcard = .error f) : f ∈ wildcard.faults := by
  cases wildcard with
  | any | except _ => cases run
  | among uris =>
    rcases except_bind_eq_error run with rows | ⟨_, _, done⟩
    · exact Naming.mem_faults_of_rows rows
    · cases done

theorem Wildcard.mem_faults_of_attributes {ν : Naming} {wildcard : Option Wildcard} {f : Fault}
    (run : wildcard.mapM ν.attributeEvents = .error f) : f ∈ wildcard.elim [] faults := by
  match wildcard, run with
  | some .any, run | some (.except _), run => cases run
  | some (.among uris), run =>
    rcases except_bind_eq_error run with some | ⟨_, _, done⟩
    · rcases except_bind_eq_error some with rows | ⟨_, _, done⟩
      · exact Naming.mem_faults_of_rows rows
      · cases done
    · cases done

theorem AttributeUse.mem_faults {ν : Naming} {u : AttributeUse} {f : Fault}
    (run : u.grammar ν = .error f) : f ∈ u.faults := by
  rcases except_bind_eq_error run with value | ⟨_, _, rest⟩
  · exact List.mem_append_left _ (Datatype.mem_faults value)
  · rcases except_bind_eq_error rest with name | ⟨_, _, done⟩
    · exact List.mem_append_right _ (QName.mem_faults name)
    · cases done

theorem ElementDecl.faults_name (decl : ElementDecl) : decl.name.faults ⊆ decl.faults := by
  obtain ⟨name, substitutes, _ | type⟩ := decl
  · exact List.subset_append_right _ _
  · exact List.Subset.trans (List.subset_append_right _ _) (List.subset_append_left _ _)

namespace Grammar

variable {f : Fault} {g : Grammar} {parts : List Grammar}

theorem appendSequence_error {rules : Array Rule} (run : appendSequence rules parts = .error f) :
    f = .memoryAllocation := by
  induction parts generalizing rules with
  | nil => cases run
  | cons g gs ih =>
    rw [appendSequence] at run
    split at run
    · split at run
      · cases run
      · exact ih run
    · cases run
      rfl

theorem appendChoices_error {rules : Array Rule} (run : appendChoices rules parts = .error f) :
    f = .memoryAllocation := by
  induction parts generalizing rules with
  | nil => cases run
  | cons g gs ih =>
    rw [appendChoices] at run
    split at run
    · exact ih run
    · cases run
      rfl

theorem appendRounds_error {rules : Array Rule} (run : appendRounds rules parts = .error f) :
    f = .memoryAllocation := by
  induction parts generalizing rules with
  | nil => cases run
  | cons g gs ih =>
    rw [appendRounds] at run
    split at run
    · exact ih run
    · cases run
      rfl

theorem except_map_eq_error {α β : Type} {h : α → β} {x : Except Fault α}
    (run : x.map h = .error f) : x = .error f := by
  cases x with
  | error fault =>
    cases run
    rfl
  | ok a => cases run

theorem sequence_error (run : sequence parts = .error f) : f = .memoryAllocation := by
  unfold sequence at run
  split at run
  · cases run
  · exact appendSequence_error (except_map_eq_error run)

theorem joined_error (run : joined parts = .error f) : f = .memoryAllocation := by
  unfold joined at run
  split at run
  · cases run
  · exact sequence_error run

theorem grouped_error {compositor : Compositor} (run : grouped compositor parts = .error f) :
    f = .memoryAllocation := by
  cases compositor with
  | sequence => exact joined_error run
  | choice =>
    rw [grouped] at run
    split at run
    · unfold choice at run
      split at run
      · cases run
      · exact appendChoices_error (except_map_eq_error run)
    · cases run
      rfl
  | all =>
    rw [grouped] at run
    split at run
    · exact appendRounds_error (except_map_eq_error run)
    · cases run
      rfl

theorem complex_error {uses : List Grammar} {events : Option (List Event)}
    (run : complex uses events g = .error f) : f = .memoryAllocation := by
  have put {segments : List Grammar} (run : (if segments.isEmpty then Except.ok g
      else sequence (segments ++ [g])) = .error f) : f = .memoryAllocation := by
    split at run
    · cases run
    · exact sequence_error run
  exact put run

/-- A repetition is refused for its bounds only. -/
theorem repeated_error {p : Particle} (run : g.repeated p.minOccurs p.maxOccurs = .error f) :
    Excused p.boundsFaults f := by
  obtain ⟨minOccurs, maxOccurs, term⟩ := p
  cases maxOccurs with
  | bounded count =>
    by_cases crossed : count < minOccurs
    · simp only [repeated, crossed, if_true] at run
      cases run
      simp [Excused, Particle.boundsFaults, Particle.checked, crossed]
    · simp only [repeated, crossed, if_false] at run
      split at run
      · cases run
      split at run
      · cases run
      split at run
      · next many =>
        cases run
        simp [Excused, Particle.boundsFaults, Particle.checked, crossed, Particle.copies, many]
      · exact .inl (joined_error run)
  | unbounded =>
    rw [repeated] at run
    split at run
    · next many =>
      cases run
      simp [Excused, Particle.boundsFaults, Particle.checked, Particle.copies, many]
    · exact .inl (joined_error run)

end Grammar

namespace Schema

variable {s : Schema} {f : Fault}

theorem blames_of_builtIn {builtIn : String} (mem : f ∈ Datatype.faults builtIn) : s.Blames f := by
  unfold Datatype.faults at mem
  split at mem
  · cases mem
  · next unknown =>
    rw [List.mem_singleton.1 mem]
    exact .unknownBuiltIn (Option.not_isSome_iff_eq_none.1 unknown)

theorem blames_of_text {text : String} (mem : f ∈ Label.faults text) : s.Blames f := by
  unfold Label.faults at mem
  split at mem
  · cases mem
  · next refused =>
    rw [List.mem_singleton.1 mem]
    exact .nonAscii (Bool.not_eq_true _ ▸ refused)

theorem blames_of_name {q : QName} (mem : f ∈ q.faults) : s.Blames f :=
  (List.mem_append.1 mem).elim blames_of_text blames_of_text

theorem blames_of_wildcard {wildcard : Wildcard} (mem : f ∈ wildcard.faults) : s.Blames f := by
  match wildcard, mem with
  | .among [], mem =>
    rw [List.mem_singleton.1 mem]
    exact .emptyNamespaces
  | .among (uri :: uris), mem =>
    obtain ⟨text, _, inner⟩ := List.mem_flatMap.1 mem
    exact blames_of_text inner

theorem blames_of_use {u : AttributeUse} (mem : f ∈ u.faults) : s.Blames f :=
  (List.mem_append.1 mem).elim blames_of_builtIn blames_of_name

theorem blames_of_variety {builtIn : String} {variety : Variety} (mem : f ∈ variety.faults builtIn) :
    s.Blames f := by
  cases variety with
  | atomic => exact blames_of_builtIn mem
  | list _ | union _ =>
    rw [List.mem_singleton.1 mem]
    exact .unsupported _

theorem blames_of_bounds {p : Particle} (part : p ∈ s.allParticles) (mem : f ∈ p.boundsFaults) :
    s.Blames f := by
  unfold Particle.boundsFaults at mem
  split at mem
  · next fault refused =>
    rw [List.mem_singleton.1 mem]
    unfold Particle.checked at refused
    split at refused
    · next count bounded =>
      split at refused
      · next crossed =>
        cases refused
        exact .crossedBounds part bounded crossed
      · cases refused
    · cases refused
  · split at mem
    · next many =>
      rw [List.mem_singleton.1 mem]
      exact .tooManyCopies part many
    · cases mem

theorem blames_of_substitutes {substitutes : List QName}
    (mem : f ∈ if substitutes.isEmpty then [] else [Fault.notImplemented .substitutionGroups]) :
    s.Blames f := by
  split at mem
  · cases mem
  · rw [List.mem_singleton.1 mem]
    exact .unsupported _

end Schema

section

variable {s : Schema} {f : Fault}

mutual

theorem TypeDef.blames : ∀ t : TypeDef, t.particles ⊆ s.allParticles → f ∈ t.faults → s.Blames f
  | .simple _ variety builtIn, _, mem => Schema.blames_of_variety mem
  | .complex _ attributes wildcard content, parts, mem => by
    rcases List.mem_append.1 mem with outside | inside
    · rcases List.mem_append.1 outside with use | admitted
      · obtain ⟨u, _, inner⟩ := List.mem_flatMap.1 use
        exact Schema.blames_of_use inner
      · cases wildcard with
        | none => cases admitted
        | some wildcard => exact Schema.blames_of_wildcard admitted
    · exact content.blames parts inside
termination_by structural t => t

theorem Content.blames : ∀ c : Content, c.particles ⊆ s.allParticles → f ∈ c.faults → s.Blames f
  | .empty, _, mem => by cases mem
  | .simple builtIn, _, mem => Schema.blames_of_builtIn mem
  | .elementOnly particle, parts, mem | .mixed particle, parts, mem => particle.blames parts mem
termination_by structural c => c

theorem Particle.blames : ∀ p : Particle, p.particles ⊆ s.allParticles → f ∈ p.faults → s.Blames f
  | ⟨_, _, term⟩, parts, mem => by
    rcases List.mem_append.1 mem with bounds | inside
    · exact Schema.blames_of_bounds (parts List.mem_cons_self) bounds
    · exact term.blames (fun q inner => parts (List.mem_cons_of_mem _ inner)) inside
termination_by structural p => p

theorem Term.blames : ∀ t : Term, t.particles ⊆ s.allParticles → f ∈ t.faults → s.Blames f
  | .element decl, parts, mem => decl.blames parts mem
  | .wildcard _, _, mem => Schema.blames_of_wildcard mem
  | .group _ particles, parts, mem => blames_of_mem_faultsOfAll particles parts mem
termination_by structural t => t

theorem blames_of_mem_faultsOfAll : ∀ ps : List Particle, particlesOfAll ps ⊆ s.allParticles →
    f ∈ faultsOfAll ps → s.Blames f
  | [], _, mem => by cases mem
  | p :: ps, parts, mem => by
    rcases List.mem_append.1 mem with first | rest
    · exact p.blames (fun q inner => parts (List.mem_append_left _ inner)) first
    · exact blames_of_mem_faultsOfAll ps (fun q inner => parts (List.mem_append_right _ inner)) rest
termination_by structural ps => ps

theorem ElementDecl.blames : ∀ decl : ElementDecl, decl.particles ⊆ s.allParticles →
    f ∈ decl.faults → s.Blames f
  | ⟨_, _, none⟩, _, mem =>
    (List.mem_append.1 mem).elim Schema.blames_of_substitutes Schema.blames_of_name
  | ⟨_, _, some type⟩, parts, mem => by
    rcases List.mem_append.1 mem with outside | inside
    · exact (List.mem_append.1 outside).elim Schema.blames_of_substitutes Schema.blames_of_name
    · exact type.blames parts inside
termination_by structural decl => decl

end

/-- The faults of a model are of the kinds that parts of it have. -/
theorem Schema.blames_of_mem_faults (mem : f ∈ s.faults) : s.Blames f := by
  rcases List.mem_append.1 mem with type | element
  · obtain ⟨t, declared, inner⟩ := List.mem_flatMap.1 type
    exact t.blames (fun p part => List.mem_append_left _ (List.mem_flatMap.2 ⟨t, declared, part⟩)) inner
  · obtain ⟨decl, declared, inner⟩ := List.mem_flatMap.1 element
    have parts : decl.particles ⊆ s.allParticles := fun p part =>
      List.mem_append_right _ (List.mem_flatMap.2 ⟨decl, declared, part⟩)
    rcases List.mem_append.1 inner with held | name
    · match decl, parts, held with
      | ⟨_, _, some type⟩, parts, held => exact type.blames parts held
    · exact Schema.blames_of_name name

end

end ExiSchema
