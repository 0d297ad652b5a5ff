import ExiSchema.Proofs.Traversal
import ExiSchema.Schema.Written

/-!
The model that comes of JSON is the one that is written there. References are resolved where the
declaration stands that they are written in, so of types declared under one name the last one before
that declaration counts; and bounds are checked wherever a particle is read.
-/

set_option autoImplicit false

namespace ExiSchema

open Json (Fields)

section

variable {fields inner : Fields} {items : List Json} {text : String}

theorem typeElements_of_content (kind : fields.text? "kind" = some "complex")
    (content : fields.get? "content" = some (.object inner)) :
    typeElements fields = contentElements inner := by
  rw [typeElements, if_pos kind]
  split
  · next here =>
    cases content.symm.trans here
    rfl
  · next other => exact absurd content (other inner)

theorem typeElements_of_empty (content : fields.get? "content" = none) : typeElements fields = [] := by
  rw [typeElements]
  split
  · split
    · next here => cases content.symm.trans here
    · rfl
  · rfl

theorem typeElements_of_simple (kind : fields.text? "kind" = some "simple") :
    typeElements fields = [] := by
  rw [typeElements, if_neg (by rw [kind]; decide)]

theorem contentElements_of_particle
    (kind : fields.text? "kind" = some "elementOnly" ∨ fields.text? "kind" = some "mixed")
    (particle : fields.get? "particle" = some (.object inner)) :
    contentElements fields = particleElements inner := by
  rw [contentElements, if_pos kind]
  split
  · next here =>
    cases particle.symm.trans here
    rfl
  · next other => exact absurd particle (other inner)

theorem contentElements_of_other (kind : fields.text? "kind" = some text)
    (other : text ≠ "elementOnly" ∧ text ≠ "mixed") : contentElements fields = [] := by
  rw [contentElements, if_neg]
  rw [kind]
  rintro (same | same)
  · exact other.1 (Option.some.inj same)
  · exact other.2 (Option.some.inj same)

theorem particleElements_of_element (element : fields.get? "element" = some (.object inner)) :
    particleElements fields = inner :: attachedElements inner := by
  rw [particleElements]
  split
  · next here =>
    cases element.symm.trans here
    rfl
  · next value other here => exact absurd (Option.some.inj (here.symm.trans element)) (other inner)
  · next here => cases element.symm.trans here

theorem particleElements_of_wildcard {value : Json} (element : fields.get? "element" = none)
    (wildcard : fields.get? "wildcard" = some value) : particleElements fields = [] := by
  rw [particleElements]
  split
  · next here => cases element.symm.trans here
  · rfl
  · rw [if_neg (by rw [wildcard]; exact Option.some_ne_none value)]

theorem particleElements_of_group (element : fields.get? "element" = none)
    (wildcard : fields.get? "wildcard" = none) (group : fields.group? = some (.array items)) :
    particleElements fields = itemElements items := by
  rw [particleElements]
  split
  · next here => cases element.symm.trans here
  · next here => cases element.symm.trans here
  · rw [if_pos wildcard]
    split
    · next here =>
      cases group.symm.trans here
      rfl
    · next other => exact absurd group (other items)

theorem attachedElements_of_inline (type : fields.get? "type" = some (.object inner)) :
    attachedElements fields = typeElements inner := by
  rw [attachedElements]
  split
  · next here =>
    cases type.symm.trans here
    rfl
  · next other => exact absurd type (other inner)

theorem attachedElements_of_other (other : ∀ inner, fields.get? "type" ≠ some (.object inner)) :
    attachedElements fields = [] := by
  rw [attachedElements]
  split
  · next here => exact absurd here (other _)
  · rfl

end

/-- The elements are those that are written in the fields, and all particles are within their bounds. -/
structure Comes (declared : List TypeDef) (written : List Fields) (own : List ElementDecl)
    (ps : List Particle) : Prop where
  elements : List.Forall₂ (ElementDecl.WrittenAs declared) written own
  bounds : ∀ p ∈ ps, p.maxOccurs.allows p.minOccurs

namespace Comes

variable {declared : List TypeDef} {written written' : List Fields} {own own' : List ElementDecl}
  {ps ps' : List Particle}

theorem nil : Comes declared [] [] [] := ⟨.nil, List.forall_mem_nil _⟩

theorem append (first : Comes declared written own ps) (second : Comes declared written' own' ps') :
    Comes declared (written ++ written') (own ++ own') (ps ++ ps') :=
  ⟨List.rel_append first.elements second.elements,
    List.forall_mem_append.2 ⟨first.bounds, second.bounds⟩⟩

end Comes

namespace Schema.Reader

/-- What the reader gives, if anything, is as `P` says. -/
def Gives {α : Type} (read : Except Fault α) (P : α → Prop) : Prop := ∀ a, read = .ok a → P a

namespace Gives

variable {α β : Type} {P : α → Prop} {Q : β → Prop} {read : Except Fault α}
  {next : α → Except Fault β}

theorem ok {a : α} (here : P a) : Gives (.ok a) P := by
  rintro _ ⟨⟩
  exact here

theorem error {f : Fault} : Gives (.error f) P := by
  rintro _ ⟨⟩

theorem bind (first : Gives read P) (rest : ∀ a, P a → Gives (next a) Q) :
    Gives (read >>= next) Q := by
  cases read with
  | error f => exact error
  | ok a => exact rest a (first a rfl)

theorem after (rest : ∀ a, Gives (next a) Q) : Gives (read >>= next) Q :=
  bind (fun _ _ => trivial) fun a (_ : True) => rest a

/-- What comes after may rely on what has been read. -/
theorem of_run (rest : ∀ a, read = .ok a → Gives (next a) Q) : Gives (read >>= next) Q :=
  bind (fun _ run => run) rest

theorem mapM {R : β → α → Prop} {f : β → Except Fault α} {xs : List β}
    (each : ∀ x, Gives (f x) (R x)) : Gives (xs.mapM f) (List.Forall₂ R xs) :=
  fun _ run => (except_mapM_eq_ok.1 run).imp each

end Gives

variable {fields : Fields} {key text : String} {declared : List TypeDef}

theorem text?_of_requiredText (read : requiredText fields key = .ok text) :
    fields.text? key = some text := by
  unfold requiredText asText wrongShape at read
  unfold Fields.text?
  cases field : fields.get? key with
  | none =>
    rw [field] at read
    cases read
  | some value =>
    rw [field] at read
    cases value <;> cases read
    rfl

theorem of_checked {p q : Particle} (checked : p.checked = .ok q) :
    q = p ∧ p.maxOccurs.allows p.minOccurs := by
  unfold Particle.checked at checked
  unfold MaxOccurs.allows
  split at checked
  · next bounded =>
    split at checked
    · cases checked
    · next within =>
      cases checked
      rw [bounded]
      exact ⟨rfl, Nat.not_lt.1 within⟩
  · next unbounded =>
    cases checked
    rw [unbounded]
    exact ⟨rfl, trivial⟩

theorem ofText?_of_writtenName {name : QName} (read : writtenName text = .ok name) :
    QName.ofText? text = some name := by
  unfold writtenName at read
  split at read
  · cases read
    assumption
  · cases read

/-- The reader looks the types up from the last one on. -/
theorem lastNamed_of_find? {name : QName} {type : TypeDef}
    (found : (declared.find? fun t => t.name? == some name) = some type) :
    LastNamed declared.reverse name type := by
  obtain ⟨named, later, before, rfl, none⟩ := List.find?_eq_some_iff_append.1 found
  refine ⟨before.reverse, later.reverse, by simp, beq_iff_eq.1 named, fun t mem => ?_⟩
  have apart := none t (List.mem_reverse.1 mem)
  simpa using apart

/-- The parts of the type of an element, whatever the name of that is. -/
def Attaches (declared : List TypeDef) (fields : Fields) (type : Option TypeDef) : Prop :=
  StandsFor declared (fields.get? "type") type ∧ ∀ name substitutes,
    Comes declared (attachedElements fields) (ElementDecl.ownInner ⟨name, substitutes, type⟩)
      (ElementDecl.particles ⟨name, substitutes, type⟩)

/-- All particles of the types are within their bounds. -/
def InBounds (types : List TypeDef) : Prop :=
  ∀ t ∈ types, ∀ p ∈ t.particles, p.maxOccurs.allows p.minOccurs

theorem gives_reference (bounds : InBounds declared)
    (field : fields.get? "type" = some (.string text)) :
    Gives (reference declared text) (Attaches declared.reverse fields) := by
  have elsewhere : attachedElements fields = [] :=
    attachedElements_of_other fun inner same => nomatch field.symm.trans same
  unfold Attaches
  rw [field, elsewhere]
  refine .of_run fun name run => ?_
  have written := ofText?_of_writtenName run
  split
  · next builtIn =>
    obtain ⟨uri, localName⟩ := name
    cases beq_iff_eq.1 builtIn
    split
    · next any =>
      cases beq_iff_eq.1 any
      exact .ok ⟨.anyType written, fun _ _ => .nil⟩
    · next other => exact .ok ⟨.builtIn written (by simpa using other), fun _ _ => .nil⟩
  · next outside =>
    split
    · next type found =>
      have last := lastNamed_of_find? found
      obtain ⟨_, _, _, named, _⟩ := id last
      refine .ok ⟨.declared written (by simpa using outside) last, fun _ _ => ⟨?_, ?_⟩⟩
      · rw [ElementDecl.ownInner, if_neg (by rw [named]; exact nofun)]
        exact .nil
      · exact bounds type (List.mem_of_find?_eq_some found)
    · exact .error

/-- A particle that is neither an element nor a wildcard has the elements of its group. -/
theorem gives_group {what : String} {items : List Json} (compositor : Compositor)
    (element : fields.get? "element" = none) (wildcard : fields.get? "wildcard" = none)
    (group : fields.group? = some (.array items))
    (inside : Gives (particles declared what items) fun ps =>
      Comes declared.reverse (itemElements items) (ownElementsOfAll ps) (particlesOfAll ps)) :
    Gives (do return .group compositor (← particles declared what items)) fun t : Term =>
      Comes declared.reverse (particleElements fields) t.ownElements t.particles := by
  rw [particleElements_of_group element wildcard group]
  exact inside.bind fun ps comes => .ok comes

-- The recursion is that of the reader, on the size of the fields. What is written is unfolded in step.
mutual

theorem gives_typeDef (bounds : InBounds declared) (fields : Fields) :
    Gives (typeDef declared fields) fun t => t.name? = none ∧
      Comes declared.reverse (typeElements fields) t.ownElements t.particles := by
  rw [typeDef]
  refine .of_run fun kind run => ?_
  have kind := text?_of_requiredText run
  split
  · rw [typeElements_of_simple kind]
    exact .after fun builtIn => .after fun variety => .ok ⟨rfl, .nil⟩
  · refine .after fun items => .after fun attributes =>
      (gives_typeContent bounds fields kind).bind fun content comes => ?_
    split
    · exact .after fun inner => .after fun wildcard => .ok ⟨rfl, comes⟩
    · exact .ok ⟨rfl, comes⟩
  · exact .error
termination_by (sizeOf fields, 1)

theorem gives_typeContent (bounds : InBounds declared) (fields : Fields)
    (kind : fields.text? "kind" = some "complex") :
    Gives (typeContent declared fields) fun c =>
      Comes declared.reverse (typeElements fields) c.ownElements c.particles := by
  rw [typeContent]
  split
  · next inner h =>
    have := Fields.sizeOf_object_lt h
    rw [typeElements_of_content kind h]
    exact gives_content bounds inner
  · exact .error
  · next h =>
    rw [typeElements_of_empty h]
    exact .ok .nil
termination_by (sizeOf fields, 0)

theorem gives_content (bounds : InBounds declared) (fields : Fields) :
    Gives (content declared fields) fun c =>
      Comes declared.reverse (contentElements fields) c.ownElements c.particles := by
  rw [content]
  refine .of_run fun kind run => ?_
  have kind := text?_of_requiredText run
  split
  · rw [contentElements_of_other kind (by decide)]
    exact .ok .nil
  · rw [contentElements_of_other kind (by decide)]
    exact .after fun builtIn => .ok .nil
  · exact (gives_contentParticle bounds fields (.inl kind)).bind fun p comes => .ok comes
  · exact (gives_contentParticle bounds fields (.inr kind)).bind fun p comes => .ok comes
  · exact .error
termination_by (sizeOf fields, 1)

theorem gives_contentParticle (bounds : InBounds declared) (fields : Fields)
    (kind : fields.text? "kind" = some "elementOnly" ∨ fields.text? "kind" = some "mixed") :
    Gives (contentParticle declared fields) fun p =>
      Comes declared.reverse (contentElements fields) p.ownElements p.particles := by
  rw [contentParticle]
  split
  · next inner h =>
    have := Fields.sizeOf_object_lt h
    rw [contentElements_of_particle kind h]
    exact gives_particle bounds inner
  · exact .error
  · exact .error
termination_by (sizeOf fields, 0)

theorem gives_particle (bounds : InBounds declared) (fields : Fields) :
    Gives (particle declared fields) fun p =>
      Comes declared.reverse (particleElements fields) p.ownElements p.particles := by
  rw [particle]
  refine .after fun min => .after fun max => (gives_term bounds fields).bind fun term comes => ?_
  intro p checked
  obtain ⟨rfl, within⟩ := of_checked checked
  exact ⟨comes.elements, List.forall_mem_cons.2 ⟨within, comes.bounds⟩⟩
termination_by (sizeOf fields, 1)

theorem gives_term (bounds : InBounds declared) (fields : Fields) :
    Gives (term declared fields) fun t =>
      Comes declared.reverse (particleElements fields) t.ownElements t.particles := by
  rw [term]
  split
  · next inner h =>
    have := Fields.sizeOf_object_lt h
    rw [particleElements_of_element h]
    exact (gives_element bounds inner).bind fun decl comes => .ok comes
  · exact .error
  · next element =>
    split
    · next wildcard =>
      rw [particleElements_of_wildcard element wildcard]
      exact .after fun inner => .after fun wildcard => .ok .nil
    · next wildcard =>
      split
      · next inner h =>
        have := Fields.sizeOf_array_lt h
        have group : fields.group? = some (.array inner) := by simp [Fields.group?, h]
        exact gives_group _ element wildcard group
          (gives_particles bounds "sequence" inner)
      · exact .error
      · next sequence =>
        split
        · next inner h =>
          have := Fields.sizeOf_array_lt h
          have group : fields.group? = some (.array inner) := by simp [Fields.group?, sequence, h]
          exact gives_group _ element wildcard group
            (gives_particles bounds "choice" inner)
        · exact .error
        · next choice =>
          split
          · next inner h =>
            have := Fields.sizeOf_array_lt h
            have group : fields.group? = some (.array inner) := by
              simp [Fields.group?, sequence, choice, h]
            exact gives_group _ element wildcard group
              (gives_particles bounds "all" inner)
          · exact .error
          · exact .error
termination_by (sizeOf fields, 0)

theorem gives_particles (bounds : InBounds declared) (what : String) : ∀ items : List Json,
    Gives (particles declared what items) fun ps =>
      Comes declared.reverse (itemElements items) (ownElementsOfAll ps) (particlesOfAll ps)
  | [] => by
    rw [particles, itemElements]
    exact .ok .nil
  | .object inner :: rest => by
    rw [particles, itemElements]
    exact (gives_particle bounds inner).bind fun p first =>
      (gives_particles bounds what rest).bind fun ps later => .ok (first.append later)
  | .null :: _ | .bool _ :: _ | .number _ :: _ | .string _ :: _ | .array _ :: _ => by
    rw [particles]
    · exact .error
    · rintro _ ⟨⟩
termination_by items => (sizeOf items, 0)

theorem gives_element (bounds : InBounds declared) (fields : Fields) :
    Gives (element declared fields) fun e =>
      Comes declared.reverse (fields :: attachedElements fields) (e :: e.ownInner) e.particles := by
  rw [element]
  refine .of_run fun name named => (gives_elementType bounds fields).bind fun type attaches =>
    .after fun substitutes => .ok ?_
  obtain ⟨elements, bounds⟩ := attaches.2 name substitutes
  exact ⟨.cons ⟨named, attaches.1⟩ elements, bounds⟩
termination_by (sizeOf fields, 1)

theorem gives_elementType (bounds : InBounds declared) (fields : Fields) :
    Gives (elementType declared fields) (Attaches declared.reverse fields) := by
  rw [elementType]
  split
  · next field =>
    unfold Attaches
    rw [field, attachedElements_of_other fun inner same => nomatch field.symm.trans same]
    exact .ok ⟨.absent, fun _ _ => .nil⟩
  · next field =>
    unfold Attaches
    rw [field, attachedElements_of_other fun inner same => nomatch field.symm.trans same]
    exact .ok ⟨.null, fun _ _ => .nil⟩
  · next text field => exact gives_reference bounds field
  · next inner field =>
    have := Fields.sizeOf_object_lt field
    rintro _ run
    obtain ⟨t, read, rfl⟩ := except_map_eq_ok.1 run
    obtain ⟨unnamed, comes⟩ := gives_typeDef bounds inner t read
    unfold Attaches
    rw [field, attachedElements_of_inline field]
    refine ⟨.inline unnamed, fun _ _ => ?_⟩
    rw [ElementDecl.ownInner, if_pos unnamed]
    exact comes
  · exact .error
termination_by (sizeOf fields, 0)

end

theorem object_of_asObject {what : String} {value : Json} (read : asObject what value = .ok fields) :
    value = .object fields := by
  cases value <;> cases read
  rfl

theorem itemsOf_of_items {items : List Json} (read : Reader.items fields key = .ok items) :
    fields.itemsOf key = items := by
  unfold Reader.items wrongShape at read
  unfold Fields.itemsOf
  cases field : fields.get? key with
  | none =>
    rw [field] at read
    cases read
    rfl
  | some value =>
    rw [field] at read
    cases value <;> cases read
    rfl

end Schema.Reader

namespace TypeDef

variable (t : TypeDef) (name : QName)

theorem name?_named : (t.named name).name? = some name := by cases t <;> rfl

theorem ownElements_named : (t.named name).ownElements = t.ownElements := by cases t <;> rfl

theorem particles_named : (t.named name).particles = t.particles := by cases t <;> rfl

end TypeDef

namespace Schema

open Reader

variable {items : List Json} {types : List TypeDef} {fields : Fields} {name : QName} {t : TypeDef}

theorem DeclaresTypes.concat (before : DeclaresTypes items types) (read : nameOf fields = .ok name)
    (named : t.name? = some name)
    (elements : List.Forall₂ (ElementDecl.WrittenAs types) (typeElements fields) t.ownElements) :
    DeclaresTypes (items ++ [.object fields]) (types ++ [t]) := by
  refine ⟨by simp [before.length], fun i t' here => ?_⟩
  by_cases old : i < types.length
  · rw [List.getElem?_append_left old] at here
    rw [List.getElem?_append_left (before.length ▸ old), List.take_append_of_le_length (Nat.le_of_lt old)]
    exact before.each i t' here
  · obtain ⟨inside, _⟩ := List.getElem?_eq_some_iff.1 here
    obtain rfl : i = types.length := by
      rw [List.length_append, List.length_singleton] at inside
      omega
    rw [List.getElem?_concat_length] at here
    cases here
    rw [List.take_left]
    refine ⟨fields, name, ?_, read, named, elements⟩
    rw [before.length, List.getElem?_concat_length]

theorem DeclaresTypes.take (declares : DeclaresTypes items types) (i : Nat) :
    DeclaresTypes (items.take i) (types.take i) := by
  refine ⟨by simp only [List.length_take, declares.length], fun j t here => ?_⟩
  rw [List.getElem?_take] at here
  split at here
  · next before =>
    rw [List.getElem?_take, if_pos before, List.take_take, Nat.min_eq_left (Nat.le_of_lt before)]
    exact declares.each j t here
  · cases here

theorem gives_namedTypes : ∀ (items done : List Json) (declared : List TypeDef),
    DeclaresTypes done declared.reverse → InBounds declared →
    Gives (namedTypes declared items) fun all =>
      DeclaresTypes (done ++ items) all.reverse ∧ InBounds all
  | [], done, declared, before, bounds => .ok ⟨(List.append_nil done).symm ▸ before, bounds⟩
  | item :: rest, done, declared, before, bounds => by
    rw [namedTypes]
    refine .of_run fun fields object => (gives_typeDef bounds fields).bind fun t ⟨_, comes⟩ =>
      .of_run fun name read => ?_
    cases object_of_asObject object
    have more := gives_namedTypes rest (done ++ [.object fields]) (t.named name :: declared)
    rw [List.reverse_cons, List.append_assoc, List.singleton_append] at more
    refine more (before.concat read (t.name?_named name) ?_) (List.forall_mem_cons.2 ⟨?_, bounds⟩)
    · exact (t.ownElements_named name).symm ▸ comes.elements
    · exact (t.particles_named name).symm ▸ comes.bounds

/-- The model that is read is the one that is written, and within its bounds. -/
theorem gives_ofJson (value : Json) :
    Gives (ofJson value) fun s => ∃ doc, value = .object doc ∧ s.WrittenAs doc ∧
      ∀ p ∈ s.allParticles, p.maxOccurs.allows p.minOccurs := by
  unfold ofJson
  refine .of_run fun doc object => .of_run fun typeItems types => ?_
  refine (gives_namedTypes typeItems [] [] ⟨rfl, fun _ _ here => nomatch here⟩
    (List.forall_mem_nil _)).bind fun declared ⟨declares, bounds⟩ => ?_
  refine .of_run fun elementItems elements => ?_
  have each (item : Json) : Gives (do element declared (← asObject "element" item))
      fun e => (∃ fields, item = .object fields ∧ List.Forall₂ (ElementDecl.WrittenAs declared.reverse)
        (fields :: attachedElements fields) (e :: e.ownInner)) ∧
          ∀ p ∈ e.particles, p.maxOccurs.allows p.minOccurs :=
    .of_run fun fields object e read =>
      have comes := gives_element bounds fields e read
      ⟨⟨fields, object_of_asObject object, comes.elements⟩, comes.bounds⟩
  refine (Gives.mapM each).bind fun es all => .ok ?_
  have inElements : ∀ e ∈ es, ∀ p ∈ e.particles, p.maxOccurs.allows p.minOccurs := fun e mem => by
    obtain ⟨_, _, _, within⟩ := exists_of_mem_forall₂ (List.Forall₂.flip all) mem
    exact within
  refine ⟨doc, object_of_asObject object, ⟨?_, ?_⟩, List.forall_mem_append.2 ⟨?_, ?_⟩⟩
  · rw [itemsOf_of_items types]
    exact declares
  · rw [itemsOf_of_items elements]
    exact all.imp fun _ _ both => both.1
  · exact List.forall_mem_flatMap.2 fun t mem => bounds t (List.mem_reverse.1 mem)
  · exact List.forall_mem_flatMap.2 inElements

end Schema

end ExiSchema
