import ExiSchema.Proofs.Model.Renaming
import ExiSchema.Schema.Parts
import ExiSchema.Table.Registration

/-!
What a walk over a model mentions: names that it enters, and elements that it declares inside types,
each with the origin of its content. A type with a name is walked once, wherever it is used, so what
it mentions does not count as mentioned by those who use it.
-/

set_option autoImplicit false

namespace ExiSchema

/-- Where the content of an element comes from. -/
inductive Origin where
  | anyType
  | named (name : QName)
  | inline (type : TypeDef)

/-- Whether elements of one name share their grammar. -/
def Origin.shared : Origin → Bool
  | .anyType | .named _ => true
  | .inline _ => false

inductive Mention where
  | enters (r : Registration)
  | declares (name : QName) (origin : Origin)

namespace Mention

def registration? : Mention → Option Registration
  | .enters r => some r
  | .declares _ _ => none

def element? : Mention → Option (QName × Origin)
  | .enters _ => none
  | .declares name origin => some (name, origin)

end Mention

def TypeDef.origin (t : TypeDef) : Origin :=
  match t.name? with
  | some name => .named name
  | none => .inline t

def ElementDecl.origin (decl : ElementDecl) : Origin := decl.type.elim .anyType TypeDef.origin

def AttributeUse.registration (u : AttributeUse) : Registration := .ofName u.name

def Wildcard.registrations : Wildcard → List Registration
  | .any | .except _ => []
  | .among uris => uris.map .ofUri

def enterAll (rs : List Registration) : List Mention := rs.map .enters

mutual

/-- What a type mentions that is walked: with its content it does so once, and with a wildcard
twice, once for each of its grammars. -/
def TypeDef.mentions : TypeDef → List Mention
  | .simple _ _ _ => []
  | .complex _ attributes wildcard content =>
    enterAll (attributes.map AttributeUse.registration) ++ (content.mentions ++
      (enterAll (wildcard.elim [] Wildcard.registrations) ++
        enterAll (wildcard.elim [] Wildcard.registrations)))
termination_by structural t => t

def Content.mentions : Content → List Mention
  | .empty | .simple _ => []
  | .elementOnly particle | .mixed particle => particle.mentions
termination_by structural t => t

def Particle.mentions : Particle → List Mention
  | ⟨_, _, term⟩ => term.mentions
termination_by structural t => t

def Term.mentions : Term → List Mention
  | .element decl => decl.mentions ++ enterAll [.ofName decl.name]
  | .wildcard wildcard => enterAll wildcard.registrations
  | .group _ particles => mentionsOfAll particles
termination_by structural t => t

def mentionsOfAll : List Particle → List Mention
  | [] => []
  | p :: ps => p.mentions ++ mentionsOfAll ps
termination_by structural t => t

def ElementDecl.mentions : ElementDecl → List Mention
  | ⟨name, _, none⟩ => enterAll [.ofName name] ++ [.declares name .anyType]
  | ⟨name, _, some type⟩ =>
    enterAll [.ofName name] ++
      ((if type.name?.isSome then [] else type.mentions) ++ [.declares name type.origin])
termination_by structural t => t

end

/-- What a type mentions where it is used. -/
def TypeDef.ownMentions (t : TypeDef) : List Mention := if t.name?.isSome then [] else t.mentions

theorem TypeDef.ownMentions_of_named {t : TypeDef} {name : QName} (named : t.name? = some name) :
    t.ownMentions = [] := if_pos (by rw [named]; rfl)

theorem TypeDef.ownMentions_of_inline {t : TypeDef} (inline : t.name? = none) :
    t.ownMentions = t.mentions := if_neg (by rw [inline]; exact Bool.false_ne_true)

theorem TypeDef.origin_of_named {t : TypeDef} {name : QName} (named : t.name? = some name) :
    t.origin = .named name := by rw [origin, named]

theorem TypeDef.origin_of_inline {t : TypeDef} (inline : t.name? = none) : t.origin = .inline t := by
  rw [origin, inline]

/-- What a global element mentions. -/
def ElementDecl.globalMentions (decl : ElementDecl) : List Mention :=
  decl.type.elim [] TypeDef.ownMentions ++ enterAll [.ofName decl.name]

namespace Schema

/-- What a model mentions outside its named types. -/
def ownMentions (s : Schema) : List Mention :=
  s.types.flatMap TypeDef.ownMentions ++ s.elements.flatMap ElementDecl.globalMentions

end Schema

/-- The types that are attached to elements. -/
def typesOf (elements : List ElementDecl) : List TypeDef := elements.filterMap ElementDecl.type

theorem TypeDef.types_eq (t : TypeDef) : t.types = t :: typesOf t.elements := rfl

theorem typesOf_append (es es' : List ElementDecl) : typesOf (es ++ es') = typesOf es ++ typesOf es' :=
  List.filterMap_append

/-- What a compilation does not change: the options, and which type has which name. -/
structure Catalog where
  options : Options
  type? : QName → Option TypeDef

namespace Catalog

/-- The type that an element of this origin has. -/
def typeOf (C : Catalog) : Origin → Option TypeDef
  | .anyType => none
  | .named name => C.type? name
  | .inline type => some type

def held (C : Catalog) (o : Origin) : Naming → Except Fault Grammar :=
  heldGrammar C.options (C.typeOf o)

/-- If the type has a name, it is the one that the catalog has under it. -/
def Has (C : Catalog) (t : TypeDef) : Prop := ∀ name, t.name? = some name → C.type? name = some t

theorem Has.typeOf {C : Catalog} {t : TypeDef} (has : C.Has t) : C.typeOf t.origin = some t := by
  unfold TypeDef.origin
  split
  · exact has _ ‹_›
  · rfl

def mentionsOf (C : Catalog) (name : QName) : List Mention := (C.type? name).elim [] TypeDef.mentions

end Catalog

namespace Mention

def registrations (ms : List Mention) : List Registration := ms.filterMap registration?

def elements (ms : List Mention) : List (QName × Origin) := ms.filterMap element?

theorem registrations_append (ms ms' : List Mention) :
    registrations (ms ++ ms') = registrations ms ++ registrations ms' := List.filterMap_append

theorem elements_append (ms ms' : List Mention) : elements (ms ++ ms') = elements ms ++ elements ms' :=
  List.filterMap_append

theorem registrations_enterAll (rs : List Registration) : registrations (enterAll rs) = rs := by
  rw [registrations, enterAll, List.filterMap_map]
  exact List.filterMap_some

theorem elements_enterAll (rs : List Registration) : elements (enterAll rs) = [] := by
  rw [elements, enterAll, List.filterMap_map]
  exact List.filterMap_eq_nil_iff.2 fun _ _ => rfl

end Mention

/-- One list has the elements of another: those that share a type once, the others each. -/
structure Listing (listed mentioned : List (QName × Origin)) : Prop where
  distinct : (listed.filter (·.2.shared)).Nodup
  shared : ∀ k, k.2.shared = true → (k ∈ listed ↔ k ∈ mentioned)
  own : (listed.filter (!·.2.shared)).Perm (mentioned.filter (!·.2.shared))

namespace Listing

variable {listed listed' mentioned mentioned' : List (QName × Origin)} {k : QName × Origin}

theorem nil : Listing [] [] := ⟨List.nodup_nil, fun _ _ => Iff.rfl, .refl _⟩

theorem of_perm (listing : Listing listed mentioned) (perm : mentioned.Perm mentioned') :
    Listing listed mentioned' :=
  ⟨listing.distinct, fun k shared => (listing.shared k shared).trans perm.mem_iff,
    listing.own.trans (perm.filter _)⟩

theorem again (listing : Listing listed mentioned) (shared : k.2.shared = true) (mem : k ∈ listed) :
    Listing listed (mentioned ++ [k]) := by
  refine ⟨listing.distinct, fun k' shared' => ?_, ?_⟩
  · rw [List.mem_append, List.mem_singleton, ← listing.shared k' shared', iff_self_or]
    rintro rfl
    exact mem
  · rw [List.filter_append, List.filter_cons_of_neg (by simp [shared]), List.filter_nil,
      List.append_nil]
    exact listing.own

theorem add (listing : Listing listed mentioned) (absent : k.2.shared = true → k ∉ listed) :
    Listing (listed ++ [k]) (mentioned ++ [k]) := by
  refine ⟨?_, fun k' shared' => ?_, ?_⟩
  · rw [List.filter_append]
    by_cases shared : k.2.shared = true
    · rw [List.filter_cons_of_pos (by exact shared), List.filter_nil, List.nodup_append_comm,
        List.singleton_append, List.nodup_cons]
      exact ⟨fun mem => absent shared (List.mem_of_mem_filter mem), listing.distinct⟩
    · rw [List.filter_cons_of_neg (by exact shared), List.filter_nil, List.append_nil]
      exact listing.distinct
  · rw [List.mem_append, List.mem_append, listing.shared k' shared']
  · rw [List.filter_append, List.filter_append]
    exact listing.own.append_right _

/-- Lists with the elements of one list are the same but for the order. -/
theorem perm (listing : Listing listed mentioned) (listing' : Listing listed' mentioned') 
    (same : mentioned.Perm mentioned') : listed.Perm listed' := by
  have shared : (listed.filter (·.2.shared)).Perm (listed'.filter (·.2.shared)) := by
    refine (List.perm_ext_iff_of_nodup listing.distinct listing'.distinct).2 fun k => ?_
    simp only [List.mem_filter]
    refine and_congr_left fun shared => ?_
    rw [listing.shared k shared, listing'.shared k shared, same.mem_iff]
  have own : (listed.filter (!·.2.shared)).Perm (listed'.filter (!·.2.shared)) :=
    listing.own.trans ((same.filter _).trans listing'.own.symm)
  exact (List.filter_append_perm _ listed).symm.trans
    ((shared.append own).trans (List.filter_append_perm _ listed'))

end Listing

end ExiSchema
