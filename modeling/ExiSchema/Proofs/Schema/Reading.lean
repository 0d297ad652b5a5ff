import ExiSchema.Proofs.Schema.Scoped
import ExiSchema.Proofs.Schema.Written

/-!
Models that were read from JSON: which types their elements have, at every depth. A type with a name is
only ever one that was declared before the place where it is written.
-/

set_option autoImplicit false

namespace ExiSchema

open Json (Fields)

theorem LastNamed.mem {declared : List TypeDef} {name : QName} {type : TypeDef}
    (last : LastNamed declared name type) : type ∈ declared := by
  obtain ⟨before, after, rfl, _⟩ := last
  simp

theorem StandsFor.last {declared : List TypeDef} {field : Option Json} {type : TypeDef} {name : QName}
    (stands : StandsFor declared field (some type)) (named : type.name? = some name) :
    LastNamed declared name type := by
  cases stands with
  | builtIn _ _ => cases named
  | declared _ _ last =>
    obtain ⟨_, _, _, named', _⟩ := id last
    cases named.symm.trans named'
    exact last
  | inline unnamed => cases unnamed.symm.trans named

/-- Every element is one of its own, or lies inside a named type that one of these has. -/
def Covers (own all : List ElementDecl) : Prop :=
  ∀ e ∈ all, e ∈ own ∨ ∃ decl ∈ own, ∃ type name, decl.type = some type ∧ type.name? = some name ∧
    e ∈ type.elements

namespace Covers

variable {own own' all all' : List ElementDecl}

theorem nil : Covers [] [] := List.forall_mem_nil _

theorem append (first : Covers own all) (second : Covers own' all') :
    Covers (own ++ own') (all ++ all') := by
  intro e mem
  rcases List.mem_append.1 mem with here | there
  · refine (first e here).imp (List.mem_append_left _) fun ⟨decl, mem, inside⟩ => ?_
    exact ⟨decl, List.mem_append_left _ mem, inside⟩
  · refine (second e there).imp (List.mem_append_right _) fun ⟨decl, mem, inside⟩ => ?_
    exact ⟨decl, List.mem_append_right _ mem, inside⟩

theorem cons (decl : ElementDecl) (rest : Covers own all) : Covers (decl :: own) (decl :: all) := by
  have one : Covers [decl] [decl] := fun _ mem => .inl mem
  exact one.append rest

end Covers

mutual

theorem TypeDef.covers : ∀ t : TypeDef, Covers t.ownElements t.elements
  | .simple _ _ _ => .nil
  | .complex _ _ _ content => content.covers
termination_by structural t => t

theorem Content.covers : ∀ c : Content, Covers c.ownElements c.elements
  | .empty | .simple _ => .nil
  | .elementOnly particle | .mixed particle => particle.covers
termination_by structural c => c

theorem Particle.covers : ∀ p : Particle, Covers p.ownElements p.elements
  | ⟨_, _, term⟩ => term.covers
termination_by structural p => p

theorem Term.covers : ∀ t : Term, Covers t.ownElements t.elements
  | .element decl => decl.covers
  | .wildcard _ => .nil
  | .group _ particles => covers_ofAll particles
termination_by structural t => t

theorem covers_ofAll : ∀ ps : List Particle, Covers (ownElementsOfAll ps) (elementsOfAll ps)
  | [] => .nil
  | p :: ps => p.covers.append (covers_ofAll ps)
termination_by structural ps => ps

theorem ElementDecl.covers : ∀ e : ElementDecl, Covers (e :: e.ownInner) (e :: e.inner)
  | ⟨_, _, none⟩ => .cons _ .nil
  | ⟨name, substitutes, some type⟩ => by
    rw [ElementDecl.ownInner, ElementDecl.inner]
    cases named : type.name? with
    | none =>
      rw [if_pos rfl]
      exact .cons _ type.covers
    | some other =>
      rw [if_neg nofun]
      intro e mem
      rcases List.mem_cons.1 mem with rfl | inside
      · exact .inl List.mem_cons_self
      · exact .inr ⟨_, List.mem_cons_self, type, other, rfl, named, inside⟩
termination_by structural e => e

end

namespace Schema

variable {s : Schema} {doc : Fields}

namespace WrittenAs

variable (written : s.WrittenAs doc)
include written

theorem last_of_own {i : Nat} {t type : TypeDef} {e : ElementDecl} {name : QName}
    (here : s.types[i]? = some t) (mem : e ∈ t.ownElements) (typed : e.type = some type)
    (named : type.name? = some name) : LastNamed (s.types.take i) name type := by
  obtain ⟨_, _, _, _, _, all⟩ := written.types.each i t here
  obtain ⟨_, _, writtenAs⟩ := exists_of_mem_forall₂ (List.Forall₂.flip all) mem
  exact (typed ▸ writtenAs.type).last named

theorem last_of_global {decl e : ElementDecl} {type : TypeDef} {name : QName} (here : decl ∈ s.elements)
    (mem : e ∈ decl :: decl.ownInner) (typed : e.type = some type) (named : type.name? = some name) :
    LastNamed s.types name type := by
  obtain ⟨_, _, _, _, all⟩ := exists_of_mem_forall₂ (List.Forall₂.flip written.elements) here
  obtain ⟨_, _, writtenAs⟩ := exists_of_mem_forall₂ (List.Forall₂.flip all) mem
  exact (typed ▸ writtenAs.type).last named

/-- What lies inside a named type was written before. -/
theorem exists_own (i : Nat) : ∀ t : TypeDef, s.types[i]? = some t → ∀ e ∈ t.elements,
    ∃ j ≤ i, ∃ t' : TypeDef, s.types[j]? = some t' ∧ e ∈ t'.ownElements := by
  induction i using Nat.strongRecOn with
  | ind i ih =>
    intro t here e mem
    rcases t.covers e mem with own | ⟨decl, mem', type, name, typed, named, inside⟩
    · exact ⟨i, le_rfl, t, here, own⟩
    · obtain ⟨j, there⟩ := List.mem_iff_getElem?.1 (written.last_of_own here mem' typed named).mem
      rw [List.getElem?_take] at there
      split at there
      · next before =>
        obtain ⟨k, le, t', there', own⟩ := ih j before type there e inside
        exact ⟨k, le.trans before.le, t', there', own⟩
      · cases there

theorem looksBack : s.LooksBack where
  types _ _ here _ mem _ _ := written.last_of_own here mem
  elements _ here _ mem _ _ := written.last_of_global here mem
  inTypes := written.exists_own
  inElements decl here e mem := by
    refine (decl.covers e mem).imp_right fun ⟨outer, mem', type, name, typed, named, inside⟩ => ?_
    have last := written.last_of_global here mem' typed named
    obtain ⟨i, there⟩ := List.mem_iff_getElem?.1 last.mem
    obtain ⟨_, _, t', there', own⟩ := written.exists_own i type there e inside
    exact ⟨t', List.mem_of_getElem? there', own⟩

end WrittenAs

/-- Each declared type has a name. -/
theorem WrittenAs.exists_name (written : s.WrittenAs doc) {i : Nat} {t : TypeDef}
    (here : s.types[i]? = some t) : ∃ name, t.name? = some name := by
  obtain ⟨_, name, _, _, named, _⟩ := written.types.each i t here
  exact ⟨name, named⟩

namespace LooksBack

variable (back : s.LooksBack)
include back

/-- What lies inside a declared type was declared before it. -/
theorem within_take {i : Nat} {t : TypeDef} (here : s.types[i]? = some t) :
    Within (s.types.take i) (typesOf t.elements) := by
  intro type mem name named
  obtain ⟨e, inside, typed⟩ := List.mem_filterMap.1 mem
  obtain ⟨j, le, t', there, own⟩ := back.inTypes i t here e inside
  exact List.take_subset_take_left s.types le (back.types j t' there e own type name typed named).mem

theorem within_types {decl : ElementDecl} (here : decl ∈ s.elements) :
    Within s.types (typesOf (decl :: decl.inner)) := by
  intro type mem name named
  obtain ⟨e, inside, typed⟩ := List.mem_filterMap.1 mem
  rcases back.inElements decl here e inside with own | ⟨t, mem', own⟩
  · exact (back.elements decl here e own type name typed named).mem
  · obtain ⟨i, there⟩ := List.mem_iff_getElem?.1 mem'
    exact List.mem_of_mem_take (back.types i t there e own type name typed named).mem

end LooksBack

/-- A model that was read from JSON uses declared types only. -/
theorem ofJson_scoped {value : Json} (read : ofJson value = .ok s) : s.Scoped := by
  obtain ⟨doc, _, written, _⟩ := gives_ofJson value s read
  have back := written.looksBack
  refine ⟨inOrder_reverse fun i t here => ?_, fun decl here => back.within_types here⟩
  exact ⟨written.exists_name here, back.within_take here⟩

end Schema

end ExiSchema
