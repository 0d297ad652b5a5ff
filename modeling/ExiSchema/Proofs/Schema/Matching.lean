import ExiSchema.Schema.Matching
import ExiSchema.Schema.Parts

/-!
Type models that match for their attribute uses: each model matches itself, and what is known of the
uses of every type on the left can be added to the relation.
-/

set_option autoImplicit false

namespace ExiSchema

mutual

theorem TypeDef.matches_refl : ∀ t : TypeDef, t.Matches Eq t
  | .simple name variety builtIn => .simple name variety builtIn
  | .complex name _ wildcard content => .complex name wildcard rfl content.matches_refl
termination_by structural t => t

theorem Content.matches_refl : ∀ c : Content, c.Matches Eq c
  | .empty => .empty
  | .simple builtIn => .simple builtIn
  | .elementOnly particle => .elementOnly particle.matches_refl
  | .mixed particle => .mixed particle.matches_refl
termination_by structural c => c

theorem Particle.matches_refl : ∀ p : Particle, p.Matches Eq p
  | ⟨minOccurs, maxOccurs, term⟩ => .bounds minOccurs maxOccurs term.matches_refl
termination_by structural p => p

theorem Term.matches_refl : ∀ t : Term, t.Matches Eq t
  | .element decl => .element decl.matches_refl
  | .wildcard wildcard => .wildcard wildcard
  | .group compositor particles => .group compositor (allMatch_refl particles)
termination_by structural t => t

theorem allMatch_refl : ∀ ps : List Particle, AllMatch Eq ps ps
  | [] => .nil
  | p :: ps => .cons p.matches_refl (allMatch_refl ps)
termination_by structural ps => ps

theorem ElementDecl.matches_refl : ∀ e : ElementDecl, e.Matches Eq e
  | ⟨name, substitutes, none⟩ => .untyped name substitutes
  | ⟨name, substitutes, some type⟩ => .typed name substitutes type.matches_refl
termination_by structural e => e

end

theorem Schema.matches_refl (s : Schema) : s.Matches Eq s :=
  ⟨List.forall₂_same.2 fun t _ => t.matches_refl, List.forall₂_same.2 fun e _ => e.matches_refl⟩

section

variable {U : List AttributeUse → List AttributeUse → Prop} {P : List AttributeUse → Prop}

/-- The types that are attached to the elements take attribute uses as asked. -/
def AttachedTake (P : List AttributeUse → Prop) (es : List ElementDecl) : Prop :=
  ∀ t ∈ es.filterMap ElementDecl.type, P t.attributes

theorem AttachedTake.of_cons {e : ElementDecl} {es : List ElementDecl}
    (take : AttachedTake P (e :: es)) : AttachedTake P es := fun t mem => by
  obtain ⟨e', mem', typed⟩ := List.mem_filterMap.1 mem
  exact take t (List.mem_filterMap.2 ⟨e', List.mem_cons_of_mem _ mem', typed⟩)

theorem attachedTake_append {es es' : List ElementDecl} :
    AttachedTake P (es ++ es') ↔ AttachedTake P es ∧ AttachedTake P es' := by
  unfold AttachedTake
  rw [List.filterMap_append]
  exact List.forall_mem_append

-- By recursion on the model on the left, whose inner types are those of its inner elements.
mutual

theorem TypeDef.Matches.and_take : ∀ {t t' : TypeDef}, t.Matches U t' → P t.attributes →
    AttachedTake P t.elements → t.Matches (fun us us' => U us us' ∧ P us) t'
  | .simple _ _ _, _, .simple name variety builtIn, _, _ => .simple name variety builtIn
  | .complex _ _ _ _, _, .complex name wildcard attributes inside, here, take =>
    .complex name wildcard ⟨attributes, here⟩ (inside.and_take take)
termination_by structural t => t

theorem Content.Matches.and_take : ∀ {c c' : Content}, c.Matches U c' →
    AttachedTake P c.elements → c.Matches (fun us us' => U us us' ∧ P us) c'
  | .empty, _, .empty, _ => .empty
  | .simple _, _, .simple builtIn, _ => .simple builtIn
  | .elementOnly _, _, .elementOnly particle, take => .elementOnly (particle.and_take take)
  | .mixed _, _, .mixed particle, take => .mixed (particle.and_take take)
termination_by structural c => c

theorem Particle.Matches.and_take : ∀ {p p' : Particle}, p.Matches U p' →
    AttachedTake P p.elements → p.Matches (fun us us' => U us us' ∧ P us) p'
  | ⟨_, _, _⟩, _, .bounds minOccurs maxOccurs term, take =>
    .bounds minOccurs maxOccurs (term.and_take take)
termination_by structural p => p

theorem Term.Matches.and_take : ∀ {t t' : Term}, t.Matches U t' →
    AttachedTake P t.elements → t.Matches (fun us us' => U us us' ∧ P us) t'
  | .element _, _, .element decl, take => .element (decl.and_take take)
  | .wildcard _, _, .wildcard wildcard, _ => .wildcard wildcard
  | .group _ _, _, .group compositor particles, take => .group compositor (particles.and_take take)
termination_by structural t => t

theorem AllMatch.and_take : ∀ {ps ps' : List Particle}, AllMatch U ps ps' →
    AttachedTake P (elementsOfAll ps) → AllMatch (fun us us' => U us us' ∧ P us) ps ps'
  | [], _, .nil, _ => .nil
  | _ :: _, _, .cons first rest, take =>
    have ⟨here, later⟩ := attachedTake_append.1 take
    .cons (first.and_take here) (rest.and_take later)
termination_by structural ps => ps

theorem ElementDecl.Matches.and_take : ∀ {e e' : ElementDecl}, e.Matches U e' →
    AttachedTake P (e :: e.inner) → e.Matches (fun us us' => U us us' ∧ P us) e'
  | ⟨_, _, none⟩, _, .untyped name substitutes, _ => .untyped name substitutes
  | ⟨_, _, some type⟩, _, .typed name substitutes matching, take =>
    .typed name substitutes (matching.and_take (take type List.mem_cons_self) take.of_cons)
termination_by structural e => e

end

theorem attachedTake_flatMap {α : Type} {xs : List α} {f : α → List ElementDecl} :
    AttachedTake P (xs.flatMap f) ↔ ∀ x ∈ xs, AttachedTake P (f x) := by
  induction xs with
  | nil => simp [AttachedTake]
  | cons x xs ih => rw [List.flatMap_cons, attachedTake_append, ih, List.forall_mem_cons]

/-- What holds of the attribute uses of every type of the first model may be asked of them. -/
theorem Schema.Matches.and_take {s s' : Schema} (matching : s.Matches U s')
    (take : ∀ t ∈ s.allTypes, P t.attributes) :
    s.Matches (fun us us' => U us us' ∧ P us) s' := by
  obtain ⟨declared, attached⟩ := List.forall_mem_append.1 take
  obtain ⟨inTypes, inElements⟩ := attachedTake_append.1 attached
  constructor
  · have known : ∀ t ∈ s.types, P t.attributes ∧ AttachedTake P t.elements := fun t mem =>
      ⟨declared t mem, attachedTake_flatMap.1 inTypes t mem⟩
    exact ((List.forall₂_and_left _ _).2 ⟨known, matching.types⟩).imp fun _ _ ⟨⟨here, inside⟩, first⟩ =>
      first.and_take here inside
  · have known : ∀ e ∈ s.elements, AttachedTake P (e :: e.inner) := attachedTake_flatMap.1 inElements
    exact ((List.forall₂_and_left _ _).2 ⟨known, matching.elements⟩).imp fun _ _ ⟨take, first⟩ =>
      first.and_take take

end

end ExiSchema
