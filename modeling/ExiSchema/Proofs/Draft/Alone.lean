import ExiSchema.Proofs.Draft.Content
import ExiSchema.Proofs.Draft.Reordered
import ExiSchema.Proofs.Draft.Standing
import ExiSchema.Proofs.Model.Named
import ExiSchema.Proofs.Schema.Reading

/-!
The grammar of a global element and that of its type alone. Over names they are the same, whatever
else has been compiled before; but of a type name that is declared several times the compiled schema
has the first definition, while an element in a model that was read has the last one so far.
-/

set_option autoImplicit false

namespace ExiSchema

namespace Draft

variable {d d' : Draft} {id id' : GrammarId} {built : Naming → Except Fault Grammar}
  {rules rules' : List NamedRule} {o : Options}

theorem Bears.exists_rules (bears : d.Bears id built) (tracked : d.store.Tracked) :
    ∃ rules, d.rules? id = some rules := by
  obtain ⟨g, here, _⟩ := bears
  obtain ⟨rules, named⟩ := (tracked.named g here.mem : g.Every _).exists_named?
  exact ⟨rules, Option.bind_eq_some_iff.2 ⟨g, here, named⟩⟩

theorem Bears.rules_eq (bears : d.Bears id built) (bears' : d'.Bears id' built)
    (natural : Natural built) (here : d.rules? id = some rules)
    (there : d'.rules? id' = some rules') : rules = rules' := by
  obtain ⟨g, known, eq⟩ := bears
  obtain ⟨g', known', eq'⟩ := bears'
  rw [rules?, known, Option.bind_some] at here
  rw [rules?, known', Option.bind_some] at there
  exact UriTable.named?_built natural eq eq' here there

theorem Compiles.rules? {c : CompiledSchema} (compiles : d.Compiles c)
    (here : d.rules? id = some rules) : (c.grammar? id).bind (Grammar.named? c.uris) = some rules := by
  obtain ⟨g, known, named⟩ := Option.bind_eq_some_iff.1 here
  obtain ⟨g', known', alike⟩ := compiles.grammar? known
  rw [known', Option.bind_some, compiles.uris]
  exact alike.named? named

theorem walks_held_start (type : Option TypeDef) :
    Walks (held type) (start o) fun id d' => d'.Bears id (heldGrammar o type) := by
  cases type with
  | none =>
    have any : ∀ id, (start o).anyType = some id → (start o).Holds id .anything := nofun
    exact fun sound => (yields_any any sound).mono
      (fun _ _ ⟨walked, _, bears⟩ => ⟨walked, bears⟩) fun _ _ walked => walked
  | some t =>
    have spec : Walks (typeGrammars t) (start o) fun pair d' =>
        d'.Bears pair.grammar (heldGrammar o (some t)) :=
      walks_typeGrammars_of_absent rfl rfl fun _ _ => rfl
    exact spec.bind fun _ _ _ bears => .pure bears

/-- The rules of a type alone are those of its grammar, over whatever rows. -/
theorem exists_of_rulesAlone {type : Option TypeDef} {alone : Option (List NamedRule)}
    (run : rulesAlone o type = .ok alone) :
    ∃ (d : Draft) (id : GrammarId),
      d.store.Tracked ∧ d.Bears id (heldGrammar o type) ∧ d.rules? id = alone := by
  have spec := walks_held_start (o := o) type (Reachable.start o).sound
  unfold rulesAlone at run
  cases ended : held type (start o) with
  | ok id d =>
    rw [ended] at run
    obtain ⟨walked, bears⟩ := spec.ok_of_eq ended
    exact ⟨d, id, walked.grows.tracked Store.tracked_initial, bears, Except.ok.inj run⟩
  | error f d =>
    rw [ended] at run
    cases run

theorem Settles.exists_element {s : Schema} {c : CompiledSchema} {decl : ElementDecl}
    (settles : d.Settles o s) (compiles : d.Compiles c) (mem : decl ∈ s.elements)
    (once : (s.elements.map ElementDecl.name).count decl.name = 1) :
    ∃ id, c.element? decl.name = some id ∧
      d.Bears id (heldGrammar o (decl.type.map s.inForce)) := by
  obtain ⟨unsorted, each, sorted⟩ := compiles.globals
  have entries : List.Forall₂ (fun e decl => e.name = decl.name ∧
      d.Bears e.grammar (heldGrammar o (decl.type.map s.inForce))) unsorted s.elements := by
    refine forall₂_join each settles.globals fun x e decl run follows => ?_
    obtain ⟨name, _, same⟩ :=
      NamedElement.ofOld_eq_ok (UriTable.resolve?_of_find? follows.name) run
    exact ⟨name, same ▸ follows.grammar⟩
  have names : unsorted.map NamedElement.name = s.elements.map ElementDecl.name := by
    refine List.forall₂_eq_eq_eq ▸ ?_
    rw [List.forall₂_map_left_iff, List.forall₂_map_right_iff]
    exact entries.imp fun _ _ here => here.1
  obtain ⟨e, mem', name, bears⟩ := exists_of_mem_forall₂ entries.flip mem
  have index : c.globals = ⟨(unsorted.mergeSort NamedElement.le).toArray⟩ := by
    rw [← sorted]
  have found := ElementIndex.lookup_of_count (List.mem_mergeSort.2 mem')
    (NamedElement.pairwise_mergeSort unsorted) (by
      rw [((List.mergeSort_perm unsorted NamedElement.le).map _).count_eq, names, name, once])
  exact ⟨e.grammar, by rw [CompiledSchema.element?, index, ← name, found]; rfl, bears⟩

end Draft

namespace Schema

variable {s : Schema} {o : Options} {r : Compilation} {decl : ElementDecl}

theorem exists_settles (uses : s.Scoped) (off : o.skipUnsupported = false)
    (run : s.compile o = .ok r) : ∃ d : Draft, d.Settles o s ∧ d.Compiles r.schema := by
  have spec := Draft.yields_addSchema_scoped uses off
  unfold compile at run
  simp only [bind, EStateM.bind] at run
  cases entered : Draft.addSchema s (Draft.start o) with
  | error f d =>
    rw [entered] at run
    cases run
  | ok _ d =>
    have settles := spec.ok_of_eq entered
    obtain ⟨c, finished, compiles⟩ := settles.compiles
    simp only [entered, finished] at run
    cases run
    exact ⟨d, settles, compiles⟩

theorem Scoped.exists_compile (uses : s.Scoped) (off : o.skipUnsupported = false)
    (entered : Draft.isOk (Draft.addSchema s (Draft.start o)) = true) :
    ∃ r, s.compile o = .ok r := by
  obtain ⟨_, d, run⟩ := Draft.exists_of_isOk entered
  obtain ⟨c, finished, _⟩ := ((Draft.yields_addSchema_scoped uses off).ok_of_eq run).compiles
  exact ⟨⟨c, d.skips⟩, compile_eq_ok run finished⟩

/-- An element has the rules of the definition in force of its type, as they are alone. -/
theorem exists_rules (uses : s.Scoped) (off : o.skipUnsupported = false)
    (run : s.compile o = .ok r) (mem : decl ∈ s.elements)
    (once : (s.elements.map ElementDecl.name).count decl.name = 1) :
    ∃ rules, r.schema.rules? decl.name = some rules ∧ ∀ alone,
      rulesAlone o (decl.type.map s.inForce) = .ok alone → alone = some rules := by
  obtain ⟨d, settles, compiles⟩ := exists_settles uses off run
  obtain ⟨id, found, bears⟩ := settles.exists_element compiles mem once
  obtain ⟨rules, here⟩ := bears.exists_rules settles.tracked
  refine ⟨rules, ?_, fun alone ran => ?_⟩
  · rw [CompiledSchema.rules?, found, Option.bind_some]
    exact compiles.rules? here
  · obtain ⟨d', id', tracked, bears', there⟩ := Draft.exists_of_rulesAlone ran
    obtain ⟨rules', there'⟩ := bears'.exists_rules tracked
    cases there.symm.trans there'
    rw [bears.rules_eq bears' (natural_heldGrammar o _) here there']

/-- Where each name is declared once, types of one name are equal, wherever they stand. -/
theorem Scoped.types_eq (uses : s.Scoped) (distinct : (s.types.map TypeDef.name?).Nodup) :
    ∀ t ∈ s.allTypes, ∀ t' ∈ s.allTypes, ∀ name, t.name? = some name → t'.name? = some name →
      t = t' := by
  have declared : ∀ t ∈ s.allTypes, ∀ name, t.name? = some name → t ∈ s.types := by
    intro t mem name named
    rcases mem_allTypes_iff.1 mem with inType | inElement
    · obtain ⟨t', declared, inner⟩ := List.mem_flatMap.1 inType
      rcases List.mem_cons.1 inner with rfl | later
      · exact declared
      · exact List.mem_reverse.1 (uses.types.within t' (List.mem_reverse.2 declared) t later name named)
    · obtain ⟨e, inner, type⟩ := List.mem_filterMap.1 inElement
      obtain ⟨decl, element, inner⟩ := List.mem_flatMap.1 inner
      exact uses.elements decl element t (List.mem_filterMap.2 ⟨e, inner, type⟩) name named
  exact fun t mem t' mem' name named named' => List.inj_on_of_nodup_map distinct
    (declared t mem name named) (declared t' mem' name named') (named.trans named'.symm)

theorem inForce_eq (distinct : (s.types.map TypeDef.name?).Nodup) {t : TypeDef}
    (declared : ∀ name, t.name? = some name → t ∈ s.types) : s.inForce t = t := by
  unfold inForce
  cases named : t.name? with
  | none => rfl
  | some name =>
    rw [Option.bind_some, type?]
    cases first : s.types.find? fun t => t.name? == some name with
    | none => rfl
    | some t' =>
      have named' := beq_iff_eq.1 (List.find?_some (p := fun t : TypeDef => t.name? == some name) first)
      exact List.inj_on_of_nodup_map distinct (List.mem_of_find?_eq_some first)
        (declared name named) (named'.trans named.symm)

end Schema

/-- A type that has grammars, as all types inside it have, can be compiled alone. -/
theorem rulesAlone_of_builds {C : Catalog} {type : Option TypeDef}
    (has : ∀ t ∈ type.elim [] TypeDef.types, C.Has t)
    (builds : ∀ t ∈ type.elim [] TypeDef.types, t.Builds C.options) :
    (∃ alone, rulesAlone C.options type = .ok alone) ∨
      rulesAlone C.options type = .error .memoryAllocation := by
  have spec := Draft.notes_held (d := Draft.start C.options) rfl has
    (Draft.Reachable.start C.options).sound [] (Draft.recorded_start C)
  unfold rulesAlone
  cases ended : Draft.held type (Draft.start C.options) with
  | ok id d => exact .inl ⟨_, rfl⟩
  | error f d =>
    refine .inr (congrArg Except.error ?_)
    rcases (spec.fails_of_eq ended).2 with memory | bad | ⟨t, mem, bad⟩
    · exact memory
    · obtain ⟨f', failed⟩ := bad _ d.uris.fits_naming
      cases type with
      | none => cases failed
      | some t =>
        obtain ⟨gs, good⟩ := (builds t List.mem_cons_self).grammars d.uris.naming
        rw [heldGrammar, good] at failed
        cases failed
    · exact absurd (builds t mem) bad

namespace Schema

variable {s : Schema} {o : Options} {r : Compilation} {decl : ElementDecl}

/-- Where each type name is declared once, every type of a model that compiles compiles alone. -/
theorem Scoped.rulesAlone (uses : s.Scoped) (distinct : (s.types.map TypeDef.name?).Nodup)
    (off : o.skipUnsupported = false) (run : s.compile o = .ok r) (mem : decl ∈ s.elements) :
    (∃ alone, rulesAlone o decl.type = .ok alone) ∨
      rulesAlone o decl.type = .error .memoryAllocation := by
  have describes := catalog_describes (uses.types_eq distinct) o
  have among : ∀ t ∈ decl.type.elim [] TypeDef.types, t ∈ s.allTypes := by
    rw [← Draft.typesOf_cons_inner]
    intro t inner
    obtain ⟨e, inner, type⟩ := List.mem_filterMap.1 inner
    exact mem_allTypes_iff.2 (.inr
      (List.mem_filterMap.2 ⟨e, List.mem_flatMap.2 ⟨decl, mem, inner⟩, type⟩))
  rcases compile_whole describes off with ⟨builds, _⟩ | ⟨f, failed, _⟩
  · exact rulesAlone_of_builds (C := s.catalog o) (fun t mem => describes.has t (among t mem))
      fun t mem => builds.types t (among t mem)
  · cases run.symm.trans failed

/-- A global element of a model that was read gets the grammar of its type: over names, the rules
are those of the type alone, where of a name that is declared several times the first definition
counts. Where each type name is declared once, that is the type that the element has. -/
theorem element_rules {value : Json} (read : ofJson value = .ok s)
    (off : o.skipUnsupported = false) (run : s.compile o = .ok r) (mem : decl ∈ s.elements)
    (once : (s.elements.map ElementDecl.name).count decl.name = 1) :
    ∃ rules, r.schema.rules? decl.name = some rules ∧
      (∀ alone, rulesAlone o (decl.type.map s.inForce) = .ok alone → alone = some rules) ∧
      ((s.types.map TypeDef.name?).Nodup → decl.type.map s.inForce = decl.type ∧
        (rulesAlone o decl.type = .ok (some rules) ∨
          rulesAlone o decl.type = .error .memoryAllocation)) := by
  have uses := ofJson_scoped read
  obtain ⟨rules, found, same⟩ := exists_rules uses off run mem once
  refine ⟨rules, found, same, fun distinct => ?_⟩
  have itself : decl.type.map s.inForce = decl.type := by
    cases here : decl.type with
    | none => rfl
    | some t =>
      refine congrArg some (inForce_eq distinct fun name named => uses.elements decl mem t ?_ name named)
      rw [Draft.typesOf_cons_inner, here]
      exact List.mem_cons_self
  rw [itself] at same
  refine ⟨itself, (uses.rulesAlone distinct off run mem).imp_left ?_⟩
  rintro ⟨alone, ran⟩
  rw [ran, same alone ran]

section

/-- An atomic type under the name `t`, as it is written. -/
def writtenType (builtIn : String) : Json :=
  .object [("kind", .string "simple"), ("name", .string "t"), ("base", .string builtIn)]

def typeT (builtIn : String) : TypeDef := .simple (some ⟨"", "t"⟩) .atomic builtIn

def writtenElement : Json := .object [("name", .string "e"), ("type", .string "t")]

def elementE (builtIn : String) : ElementDecl := ⟨⟨"", "e"⟩, [], some (typeT builtIn)⟩

/-- Types of one name, and an element whose type has it. -/
def written (builtIns : List String) : Json :=
  .object [("types", .array (builtIns.map writtenType)), ("elements", .array [writtenElement])]

theorem namedTypes_written (builtIns : List String) (declared : List TypeDef) :
    Reader.namedTypes declared (builtIns.map writtenType) =
      .ok ((builtIns.map typeT).reverse ++ declared) := by
  induction builtIns generalizing declared with
  | nil => rfl
  | cons builtIn rest ih =>
    have first : Reader.typeDef declared [("kind", .string "simple"), ("name", .string "t"),
        ("base", .string builtIn)] = .ok (.simple none .atomic builtIn) := by
      rw [Reader.typeDef]
      rfl
    have step : Reader.namedTypes declared (writtenType builtIn :: rest.map writtenType) =
        Reader.namedTypes (typeT builtIn :: declared) (rest.map writtenType) := by
      rw [Reader.namedTypes, writtenType]
      simp only [Reader.asObject, bind, Except.bind, first]
      rfl
    rw [List.map_cons, step, ih, List.map_cons, List.reverse_cons, List.append_assoc]
    rfl

theorem element_written (declared : List TypeDef) (builtIn : String) :
    Reader.element (typeT builtIn :: declared) [("name", .string "e"), ("type", .string "t")] =
      .ok (elementE builtIn) := by
  rw [Reader.element, Reader.elementType]
  rfl

/-- Of several definitions the element has the last one. -/
theorem ofJson_written (builtIns : List String) (last : String) :
    ofJson (written (builtIns ++ [last])) =
      .ok ⟨(builtIns ++ [last]).map typeT, [elementE last]⟩ := by
  have declared : ((builtIns ++ [last]).map typeT).reverse ++ [] =
      typeT last :: (builtIns.map typeT).reverse := by simp
  have back : (typeT last :: (builtIns.map typeT).reverse).reverse =
      (builtIns ++ [last]).map typeT := by simp
  have types := declared ▸ namedTypes_written (builtIns ++ [last]) []
  have fields : Reader.asObject "document" (written (builtIns ++ [last])) =
      .ok [("types", .array ((builtIns ++ [last]).map writtenType)),
        ("elements", .array [writtenElement])] := rfl
  have items : Reader.items [("types", .array ((builtIns ++ [last]).map writtenType)),
      ("elements", .array [writtenElement])] "types" =
        .ok ((builtIns ++ [last]).map writtenType) := rfl
  have items' : Reader.items [("types", .array ((builtIns ++ [last]).map writtenType)),
      ("elements", .array [writtenElement])] "elements" = .ok [writtenElement] := rfl
  have inner : Reader.asObject "element" writtenElement =
      .ok [("name", .string "e"), ("type", .string "t")] := rfl
  simp only [ofJson, bind, Except.bind, fields, items, items', types, List.mapM_cons,
    List.mapM_nil, inner, element_written, back]
  rfl

/-- A value and then the end. -/
def valueRules (value : Datatype) : List NamedRule :=
  [⟨0, [⟨.characters value, some 1⟩]⟩, ⟨1, [⟨.endElement, none⟩]⟩]

theorem rulesAlone_string : rulesAlone {} (some (typeT "string")) = .ok (some (valueRules .string)) := by
  rfl

theorem rulesAlone_int : rulesAlone {} (some (typeT "int")) = .ok (some (valueRules .integer)) := by
  rfl

theorem element_rules_int : ∃ s r, ofJson (written ["int"]) = .ok s ∧ s.compile {} = .ok r ∧
    r.schema.rules? ⟨"", "e"⟩ = some (valueRules .integer) := by
  have read := ofJson_written [] "int"
  obtain ⟨r, run⟩ := (ofJson_scoped read).exists_compile (o := {}) rfl (by decide +kernel)
  obtain ⟨rules, found, same, _⟩ :=
    element_rules read (o := {}) rfl run List.mem_cons_self (by decide)
  have rules_eq := same _ rulesAlone_int
  cases rules_eq
  exact ⟨_, r, read, run, found⟩

/-- Of two definitions of one name the element has the last one, and the grammar of the first. -/
theorem element_rules_redeclared : ∃ s r, ofJson (written ["string", "int"]) = .ok s ∧
    s.compile {} = .ok r ∧ elementE "int" ∈ s.elements ∧
    (s.elements.map ElementDecl.name).count ⟨"", "e"⟩ = 1 ∧
    rulesAlone {} (elementE "int").type = .ok (some (valueRules .integer)) ∧
    r.schema.rules? ⟨"", "e"⟩ = some (valueRules .string) ∧
    valueRules .string ≠ valueRules .integer := by
  have read := ofJson_written ["string"] "int"
  have uses := ofJson_scoped read
  obtain ⟨r, run⟩ := uses.exists_compile (o := {}) rfl (by decide +kernel)
  obtain ⟨rules, found, same⟩ := exists_rules uses (o := {}) rfl run List.mem_cons_self (by decide)
  have rules_eq := same _ rulesAlone_string
  cases rules_eq
  exact ⟨_, r, read, run, List.mem_cons_self, by decide, rulesAlone_int, found, by decide⟩

end

end Schema

end ExiSchema
