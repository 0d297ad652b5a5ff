import ExiSchema.Proofs.Draft.Content
import ExiSchema.Proofs.Draft.Whole

/-!
Models with the same declarations in another order compile to the same schema but for the numbers of
grammars. What a whole model registers is known but for the order in which it was registered, and
canonical tables and sorted elements do not tell that order.
-/

set_option autoImplicit false

namespace ExiSchema

namespace CompiledSchema

variable {c c' : CompiledSchema}

theorem Presents.view_eq {e e' : NamedElement} {q : QName} {built : Naming → Except Fault Grammar}
    (here : c.Presents e q built) (there : c'.Presents e' q built) (uris : c.uris = c'.uris) :
    c.view e = c'.view e' := by
  obtain ⟨g, known, eq⟩ := here.grammar
  obtain ⟨g', known', eq'⟩ := there.grammar
  have names := here.name.trans there.name.symm
  have uri : e.uri = e'.uri := Label.text_injective (congrArg QName.uri names)
  have localName : e.localName = e'.localName :=
    Label.text_injective (congrArg QName.localName names)
  have ref : e.ref = e'.ref := Option.some.inj (here.ref.symm.trans (uris ▸ there.ref))
  have grammar : g = g' := Except.ok.inj (eq.symm.trans (uris ▸ eq'))
  rw [view, view, uri, localName, ref, known, known', grammar]

/-- Entries of the same things in another order look the same but for the order. -/
theorem views_perm {α : Type} {name : α → QName} {built : α → Naming → Except Fault Grammar}
    {xs xs' : List α} {es es' : List NamedElement} (uris : c.uris = c'.uris)
    (here : List.Forall₂ (fun e x => c.Presents e (name x) (built x)) es xs)
    (there : List.Forall₂ (fun e x => c'.Presents e (name x) (built x)) es' xs')
    (perm : xs.Perm xs') : (es.map c.view).Perm (es'.map c'.view) := by
  obtain ⟨es'', there, perm⟩ := List.perm_comp_forall₂ perm there.flip
  have same : es.map c.view = es''.map c'.view := by
    refine List.forall₂_eq_eq_eq ▸ ?_
    rw [List.forall₂_map_left_iff, List.forall₂_map_right_iff]
    exact forall₂_join here.flip there fun _ _ _ first first' => first.view_eq first' uris
  rw [same]
  exact perm.map c'.view

end CompiledSchema

/-- What is seen of elements is in the order of their names. -/
def ElementView.le (v w : ElementView) : Bool :=
  NamedElement.le ⟨v.uri, v.localName, v.ref, 0⟩ ⟨w.uri, w.localName, w.ref, 0⟩

def ElementView.name (v : ElementView) : QName := ⟨v.uri.text, v.localName.text⟩

namespace CompiledSchema

variable {c c' : CompiledSchema}

/-- Sorted by different names, what looks the same is in the same order. -/
theorem map_view_mergeSort_eq {es es' : List NamedElement}
    (perm : (es.map c.view).Perm (es'.map c'.view)) (distinct : (es.map NamedElement.name).Nodup) :
    (es.mergeSort NamedElement.le).map c.view = (es'.mergeSort NamedElement.le).map c'.view := by
  have sorted (c : CompiledSchema) (es : List NamedElement) :
      ((es.mergeSort NamedElement.le).map c.view).Pairwise fun v w => v.le w = true := by
    rw [List.pairwise_map]
    exact NamedElement.pairwise_mergeSort es
  have all : ((es.mergeSort NamedElement.le).map c.view).Perm
      ((es'.mergeSort NamedElement.le).map c'.view) :=
    ((List.mergeSort_perm _ _).map _).trans (perm.trans ((List.mergeSort_perm _ _).map _).symm)
  refine all.eq_of_pairwise ?_ (sorted c es) (sorted c' es')
  intro v w mem mem' first second
  obtain ⟨e, here, rfl⟩ := List.mem_map.1 mem
  obtain ⟨e', there, rfl⟩ := List.mem_map.1 (all.mem_iff.2 mem')
  have names : e.name = e'.name := NamedElement.name_eq_of_le first second
  rw [List.mem_mergeSort] at here there
  rw [List.inj_on_of_nodup_map distinct here there names]

end CompiledSchema

namespace Draft

variable {C : Catalog} {s s' : Schema} {d d' : Draft} {c c' : CompiledSchema}

namespace Complete

/-- The registered types are those of the catalog. -/
theorem mem_names_iff (complete : d.Complete C s) (describes : C.Describes s) {name : QName} :
    name ∈ d.types.names ↔ (C.type? name).isSome := by
  constructor
  · intro mem
    have found : d.types.find? name ≠ none := fun absent =>
      TypeRegistry.find?_eq_none_iff.1 absent mem
    obtain ⟨pair, found⟩ := Option.ne_none_iff_exists'.1 found
    obtain ⟨t, stands⟩ := complete.recorded.types name pair found
    rw [stands.listed]
    rfl
  · intro listed
    obtain ⟨t, listed⟩ := Option.isSome_iff_exists.1 listed
    obtain ⟨mem, named⟩ := describes.listed name t listed
    obtain ⟨id, here⟩ := (complete.covers t mem).registered name named
    by_contra absent
    rw [typeId?, TypeRegistry.find?_eq_none_iff.2 absent] at here
    cases here

theorem names_perm (complete : d.Complete C s) (complete' : d'.Complete C s')
    (describes : C.Describes s) (describes' : C.Describes s') :
    d.types.names.Perm d'.types.names :=
  (List.perm_ext_iff_of_nodup complete.recorded.distinct complete'.recorded.distinct).2 fun _ =>
    (complete.mem_names_iff describes).trans (complete'.mem_names_iff describes').symm

/-- In whatever order a model is entered, it mentions the same. -/
theorem book_perm (complete : d.Complete C s) (complete' : d'.Complete C s')
    (describes : C.Describes s) (describes' : C.Describes s') (reorders : s.Reorders s') :
    (d.book C s.ownMentions).Perm (d'.book C s'.ownMentions) := by
  have own : s.ownMentions.Perm s'.ownMentions :=
    (reorders.types.flatMap_right _).append (reorders.elements.flatMap_right _)
  exact own.append ((complete.names_perm complete' describes describes').flatMap_right _)

theorem regular (complete : d.Complete C s) : d.uris.Regular :=
  complete.recorded.written.names.regular UriTable.regular_initial

theorem uris_eq (complete : d.Complete C s) (complete' : d'.Complete C s')
    (describes : C.Describes s) (describes' : C.Describes s') (reorders : s.Reorders s') :
    d.uris.sorted.uris = d'.uris.sorted.uris := by
  have book := complete.book_perm complete' describes describes' reorders
  have names := complete.recorded.written.names
  have names' : Registration.Enter (Mention.registrations (d.book C s.ownMentions)) .initial d'.uris :=
    complete'.recorded.written.names.congr fun _ => ((book.filterMap _).mem_iff).symm
  exact UriTable.sorted_uris_eq complete.regular complete'.regular
    ⟨fun text => (names.uri text).trans (names'.uri text).symm,
      fun q => (names.name q).trans (names'.name q).symm⟩

theorem presents_globals (complete : d.Complete C s) (compiles : d.Compiles c) :
    ∃ es, c.globals.entries.toList = es.mergeSort NamedElement.le ∧
      List.Forall₂ (fun e decl => c.Presents e decl.name (heldGrammar C.options decl.type)) es
        s.elements := by
  obtain ⟨es, each, sorted⟩ := compiles.globals
  refine ⟨es, sorted, ?_⟩
  exact forall₂_join each complete.globals fun x e decl run lists =>
    compiles.presents complete.regular (natural_heldGrammar C.options decl.type) lists.name
      lists.grammar run

theorem presents_locals (complete : d.Complete C s) (compiles : d.Compiles c) :
    ∃ es listed, c.locals = es.mergeSort NamedElement.le ∧
      Listing listed (Mention.elements (d.book C s.ownMentions)) ∧
      List.Forall₂ (fun e (k : QName × Origin) => c.Presents e k.1 (C.held k.2)) es listed := by
  obtain ⟨es, each, sorted⟩ := compiles.locals
  obtain ⟨listed, stand, listing⟩ := complete.recorded.written.locals
  refine ⟨es, listed, sorted, listing, ?_⟩
  exact forall₂_join each stand fun x e k run stands =>
    compiles.presents complete.regular (natural_heldGrammar C.options (C.typeOf k.2)) stands.name
      stands.grammar run

/-- What is seen of a type is what is built of its definition over the canonical rows. -/
theorem typeView_eq (complete : d.Complete C s) (describes : C.Describes s) (compiles : d.Compiles c)
    (name : QName) :
    (C.type? name = none ∧ c.typeView name = none) ∨
      ∃ t gs, C.type? name = some t ∧ t.grammars C.options c.uris.naming = .ok gs ∧
        c.typeView name = some (some gs.1, some gs.2) := by
  have types : c.typeGrammars? name = d.types.find? name := by
    rw [CompiledSchema.typeGrammars?, compiles.types]
  cases found : d.types.find? name with
  | none =>
    have absent := mt (complete.mem_names_iff describes).2 (TypeRegistry.find?_eq_none_iff.1 found)
    refine .inl ⟨Option.not_isSome_iff_eq_none.1 absent, ?_⟩
    rw [CompiledSchema.typeView, types, found]
    rfl
  | some pair =>
    obtain ⟨t, stands⟩ := complete.recorded.types name pair found
    obtain ⟨gs, holds, eq⟩ := stands.grammars
    obtain ⟨g, known, whole⟩ := compiles.built complete.regular
      (natural_heldGrammar C.options (some t))
      ⟨gs.1, holds.1, fun ν fits => congrArg (Except.map Prod.fst) (eq ν fits)⟩
    obtain ⟨g', known', empty⟩ := compiles.built complete.regular
      (natural_emptyGrammar C.options t)
      ⟨gs.2, holds.2, fun ν fits => congrArg (Except.map Prod.snd) (eq ν fits)⟩
    obtain ⟨gs', built, rfl⟩ := except_map_eq_ok.1 whole
    obtain ⟨gs'', built', rfl⟩ := except_map_eq_ok.1 empty
    cases built.symm.trans built'
    refine .inr ⟨t, gs', stands.listed, built, ?_⟩
    rw [CompiledSchema.typeView, types, found]
    simp only [Option.map_some, known, known']

theorem closed (complete : d.Complete C s) (describes : C.Describes s) (compiles : d.Compiles c) :
    c.Closed := by
  have known {e : NamedElement} {q : QName} {built : Naming → Except Fault Grammar}
      (presents : c.Presents e q built) : (c.grammar? e.grammar).isSome := by
    obtain ⟨g, known, _⟩ := presents.grammar
    rw [known]
    rfl
  refine ⟨fun name pair found => ?_, fun e mem => ?_, fun e mem => ?_⟩
  · rcases complete.typeView_eq describes compiles name with ⟨_, none⟩ | ⟨_, gs, _, _, seen⟩
    · rw [CompiledSchema.typeView, found] at none
      cases none
    · rw [CompiledSchema.typeView, found] at seen
      obtain ⟨whole, empty⟩ := Prod.mk.inj (Option.some.inj seen)
      rw [whole, empty]
      exact ⟨rfl, rfl⟩
  · obtain ⟨es, sorted, presents⟩ := complete.presents_globals compiles
    rw [sorted, List.mem_mergeSort] at mem
    obtain ⟨decl, _, here⟩ := exists_of_mem_forall₂ presents mem
    exact known here
  · obtain ⟨es, listed, sorted, _, presents⟩ := complete.presents_locals compiles
    rw [sorted, List.mem_mergeSort] at mem
    obtain ⟨k, _, here⟩ := exists_of_mem_forall₂ presents mem
    exact known here

/-- Two whole models with the same declarations come to the same. -/
theorem same (complete : d.Complete C s) (complete' : d'.Complete C s') (describes : C.Describes s)
    (describes' : C.Describes s') (reorders : s.Reorders s')
    (distinct : (s.elements.map ElementDecl.name).Nodup) (compiles : d.Compiles c)
    (compiles' : d'.Compiles c') : c.SameUpToNumbers c' := by
  have uris : c.uris = c'.uris := by
    rw [compiles.uris, compiles'.uris,
      complete.uris_eq complete' describes describes' reorders]
  refine ⟨uris, fun name => ?_, ?_, ?_⟩
  · rcases complete.typeView_eq describes compiles name with ⟨absent, seen⟩ | ⟨t, gs, listed, eq, seen⟩ <;>
      rcases complete'.typeView_eq describes' compiles' name with
        ⟨absent', seen'⟩ | ⟨t', gs', listed', eq', seen'⟩
    · rw [seen, seen']
    · cases absent.symm.trans listed'
    · cases listed.symm.trans absent'
    · cases listed.symm.trans listed'
      cases eq.symm.trans (uris ▸ eq')
      rw [seen, seen']
  · obtain ⟨es, sorted, presents⟩ := complete.presents_globals compiles
    obtain ⟨es', sorted', presents'⟩ := complete'.presents_globals compiles'
    have names : es.map NamedElement.name = s.elements.map ElementDecl.name := by
      refine List.forall₂_eq_eq_eq ▸ ?_
      rw [List.forall₂_map_left_iff, List.forall₂_map_right_iff]
      exact presents.imp fun _ _ here => here.name
    rw [sorted, sorted']
    exact CompiledSchema.map_view_mergeSort_eq
      (CompiledSchema.views_perm uris presents presents' reorders.elements) (names ▸ distinct)
  · obtain ⟨es, listed, sorted, listing, presents⟩ := complete.presents_locals compiles
    obtain ⟨es', listed', sorted', listing', presents'⟩ := complete'.presents_locals compiles'
    -- what both models mention is the same but for the order, and it fixes what is listed
    have mentioned := (complete.book_perm complete' describes describes' reorders).filterMap
      Mention.element?
    rw [sorted, sorted']
    exact ((List.mergeSort_perm _ _).map _).trans
      ((CompiledSchema.views_perm uris presents presents' (listing.perm listing' mentioned)).trans
        ((List.mergeSort_perm _ _).map _).symm)

end Complete

end Draft

namespace Schema

variable {s s' : Schema}

/-- The types of a model by their names. -/
def catalog (s : Schema) (options : Options) : Catalog :=
  ⟨options, fun name => s.allTypes.find? fun t => t.name? == some name⟩

theorem catalog_describes (one : ∀ t ∈ s.allTypes, ∀ t' ∈ s.allTypes, ∀ name,
    t.name? = some name → t'.name? = some name → t = t') (options : Options) :
    (s.catalog options).Describes s := by
  have listed (name : QName) (t : TypeDef) (here : (s.catalog options).type? name = some t) :
      t ∈ s.allTypes ∧ t.name? = some name := by
    have test := List.find?_some (p := fun t : TypeDef => t.name? == some name) here
    exact ⟨List.mem_of_find?_eq_some here, beq_iff_eq.1 test⟩
  refine ⟨fun t mem name named => ?_, listed⟩
  cases found : (s.catalog options).type? name with
  | none =>
    have differ := List.find?_eq_none.1 found t mem
    exact absurd (beq_iff_eq.2 named) differ
  | some t' =>
    obtain ⟨mem', named'⟩ := listed name t' found
    rw [one t mem t' mem' name named named']

theorem Consistent.describes (consistent : s.Consistent) (options : Options) :
    (s.catalog options).Describes s := catalog_describes consistent.types options

theorem Reorders.mem_allTypes_iff (reorders : s.Reorders s') {t : TypeDef} :
    t ∈ s.allTypes ↔ t ∈ s'.allTypes := by
  have elements := (reorders.elements.flatMap_right fun e => e :: e.inner).filterMap ElementDecl.type
  rw [Schema.mem_allTypes_iff, Schema.mem_allTypes_iff,
    (reorders.types.flatMap_right TypeDef.types).mem_iff]
  exact or_congr_right elements.mem_iff

theorem Reorders.describes {C : Catalog} (reorders : s.Reorders s') (describes : C.Describes s) :
    C.Describes s' :=
  ⟨fun t mem => describes.has t (reorders.mem_allTypes_iff.2 mem), fun name t here =>
    ⟨reorders.mem_allTypes_iff.1 (describes.listed name t here).1, (describes.listed name t here).2⟩⟩

theorem Reorders.builds_iff (reorders : s.Reorders s') {options : Options} :
    s.Builds options ↔ s'.Builds options :=
  ⟨fun builds => ⟨fun t mem => builds.types t (reorders.mem_allTypes_iff.2 mem),
      fun e mem => builds.names e (reorders.elements.mem_iff.2 mem)⟩,
    fun builds => ⟨fun t mem => builds.types t (reorders.mem_allTypes_iff.1 mem),
      fun e mem => builds.names e (reorders.elements.mem_iff.1 mem)⟩⟩

/-- The order of declarations does not matter. Unless memory runs out, both models compile or both
fail, and where they compile, the results are the same but for the numbers of grammars. -/
theorem compile_reordered {options : Options} (consistent : s.Consistent)
    (reorders : s.Reorders s') (off : options.skipUnsupported = false) :
    (∃ r r', s.compile options = .ok r ∧ s'.compile options = .ok r' ∧ r.schema.Closed ∧
        r'.schema.Closed ∧ r.schema.SameUpToNumbers r'.schema) ∨
      (∃ f f', s.compile options = .error f ∧ s'.compile options = .error f') ∨
        s.compile options = .error .memoryAllocation ∨
          s'.compile options = .error .memoryAllocation := by
  have describes := consistent.describes options
  have describes' := reorders.describes describes
  rcases compile_whole describes off with ⟨builds, d, c, run, complete, compiles⟩ | ⟨f, run, cause⟩ <;>
    rcases compile_whole describes' off with
      ⟨builds', d', c', run', complete', compiles'⟩ | ⟨f', run', cause'⟩
  · exact .inl ⟨_, _, run, run', complete.closed describes compiles,
      complete'.closed describes' compiles',
      complete.same complete' describes describes' reorders consistent.elements compiles compiles'⟩
  · rcases cause' with rfl | fails
    · exact .inr (.inr (.inr run'))
    · exact absurd (reorders.builds_iff.1 builds) fails
  · rcases cause with rfl | fails
    · exact .inr (.inr (.inl run))
    · exact absurd (reorders.builds_iff.2 builds') fails
  · exact .inr (.inl ⟨f, f', run, run'⟩)

section

def number : TypeDef := .simple (some ⟨"", "number"⟩) .atomic "int"

def numbers : TypeDef :=
  .complex (some ⟨"", "numbers"⟩) [⟨⟨"", "unit"⟩, true, "string"⟩] none
    (.elementOnly (.zeroOrMore (.element ⟨⟨"", "item"⟩, [], some number⟩)))

/-- Two types, one of which uses the other, and two elements. -/
def forward : Schema :=
  ⟨[number, numbers], [⟨⟨"", "one"⟩, [], some number⟩, ⟨⟨"", "many"⟩, [], some numbers⟩]⟩

def backward : Schema := ⟨forward.types.reverse, forward.elements.reverse⟩

theorem consistent_forward : forward.Consistent := by
  have all : forward.allTypes = [number, numbers, number, number, numbers, number] := rfl
  have among {t : TypeDef} (mem : t ∈ forward.allTypes) : t = number ∨ t = numbers := by
    simp only [all, List.mem_cons, List.not_mem_nil, or_false] at mem
    tauto
  refine ⟨fun t mem t' mem' name named named' => ?_, by decide⟩
  rcases among mem with rfl | rfl <;> rcases among mem' with rfl | rfl
  · rfl
  · exact absurd (named.trans named'.symm) (by decide)
  · exact absurd (named.trans named'.symm) (by decide)
  · rfl

theorem reorders_forward : forward.Reorders backward :=
  ⟨(List.reverse_perm _).symm, (List.reverse_perm _).symm⟩

theorem exists_compile {C : Catalog} (describes : C.Describes s)
    (off : C.options.skipUnsupported = false)
    (entered : Draft.isOk (Draft.addSchema s (Draft.start C.options)) = true) :
    ∃ r, s.compile C.options = .ok r := by
  obtain ⟨_, d, run⟩ := Draft.exists_of_isOk entered
  obtain ⟨complete, empty, _⟩ := (Draft.yields_addSchema describes off).ok_of_eq run
  obtain ⟨c, finished, _⟩ := complete.compiles empty
  exact ⟨⟨c, d.skips⟩, compile_eq_ok run finished⟩

theorem forward_reordered : ∃ r r', forward.compile {} = .ok r ∧ backward.compile {} = .ok r' ∧
    r.schema.SameUpToNumbers r'.schema := by
  have describes := consistent_forward.describes {}
  have off : ({} : Options).skipUnsupported = false := rfl
  obtain ⟨r, run⟩ := exists_compile describes off (by decide +kernel)
  obtain ⟨r', run'⟩ := exists_compile (reorders_forward.describes describes) off (by decide +kernel)
  rcases compile_reordered consistent_forward reorders_forward off with
    ⟨_, _, done, done', _, _, same⟩ | ⟨_, _, failed, _⟩ | failed | failed
  · exact ⟨_, _, done, done', same⟩
  · cases run.symm.trans failed
  · cases run.symm.trans failed
  · cases run'.symm.trans failed

end

end Schema

end ExiSchema
