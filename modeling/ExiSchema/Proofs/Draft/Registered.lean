import ExiSchema.Proofs.Draft.Entering
import ExiSchema.Proofs.Draft.Registry

/-!
What a draft has registered while no part of the model has been put off. The tables have the names
that were mentioned, every named type has its own grammars once and for all, and the local elements
are those mentioned: elements that share a type stand once, those with a type of their own as often
as they are mentioned.
-/

set_option autoImplicit false

namespace ExiSchema

namespace Draft

/-- The grammar that elements of this origin share as their type. -/
def typeId? (d : Draft) : Origin → Option GrammarId
  | .anyType => d.anyType
  | .named name => (d.types.find? name).map GrammarPair.grammar
  | .inline _ => none

/-- The number is that of a shared type, or of the type of some local element. -/
def Claimed (d : Draft) (id : GrammarId) : Prop :=
  (∃ o, d.typeId? o = some id) ∨ ∃ e ∈ d.locals.toList, e.type = id

variable {C : Catalog} {d d' : Draft}

/-- There are grammars for the type, and they are registered if it has a name. -/
structure Covers (C : Catalog) (d : Draft) (t : TypeDef) : Prop where
  builds : t.Builds C.options
  registered : ∀ name, t.name? = some name → ∃ id, d.typeId? (.named name) = some id

theorem Covers.keep {t : TypeDef} (covers : d.Covers C t)
    (typeIds : ∀ o id, d.typeId? o = some id → d'.typeId? o = some id) : d'.Covers C t := by
  refine ⟨covers.builds, fun name named => ?_⟩
  obtain ⟨id, here⟩ := covers.registered name named
  exact ⟨id, typeIds _ _ here⟩

structure TypeStands (C : Catalog) (d : Draft) (name : QName) (pair : GrammarPair) (t : TypeDef) :
    Prop where
  listed : C.type? name = some t
  grammars : ∃ gs, d.HoldsPair pair gs ∧ ∀ ν, d.uris.Fits ν → t.grammars C.options ν = .ok gs
  covers : ∀ t' ∈ t.types, d.Covers C t'

theorem TypeStands.keep {name : QName} {pair : GrammarPair} {t : TypeDef}
    (stands : d.TypeStands C name pair t) (grows : d.store.Grows d'.store)
    (typeIds : ∀ o id, d.typeId? o = some id → d'.typeId? o = some id) :
    d'.TypeStands C name pair t := by
  obtain ⟨gs, ⟨whole, empty⟩, eq⟩ := stands.grammars
  refine ⟨stands.listed, ⟨gs, ⟨grows.grammars whole, grows.grammars empty⟩, fun ν fits => ?_⟩,
    fun t' mem => (stands.covers t' mem).keep typeIds⟩
  exact eq ν (fits.of_extends grows.uris.extends)

/-- What the entry of a local element has to do with its name and origin. -/
structure LocalStands (C : Catalog) (d : Draft) (e : LocalElement) (k : QName × Origin) : Prop where
  name : d.uris.find? k.1 = some e.name
  shared : k.2.shared = true → d.typeId? k.2 = some e.type
  own : k.2.shared = false → ∀ o, d.typeId? o ≠ some e.type
  known : e.type < d.grammars.size
  grammar : d.Bears e.grammar (C.held k.2)

theorem LocalStands.keep {e : LocalElement} {k : QName × Origin} (stands : d.LocalStands C e k)
    (grows : d.store.Grows d'.store) (typeIds : ∀ o id, d.typeId? o = some id → d'.typeId? o = some id)
    (apart : ∀ o, d'.typeId? o = some e.type → ∃ o', d.typeId? o' = some e.type) :
    d'.LocalStands C e k := by
  refine ⟨grows.uris.extends.find? stands.name, fun shared => typeIds _ _ (stands.shared shared),
    fun own o here => ?_, stands.known.trans_le (size_le_of_grows grows), stands.grammar.grow grows⟩
  obtain ⟨o', there⟩ := apart o here
  exact stands.own own o' there

/-- The tables and the local elements are what the mentions say. -/
structure Written (C : Catalog) (d : Draft) (mentions : List Mention) : Prop where
  names : Registration.Enter (Mention.registrations mentions) .initial d.uris
  locals : ∃ listed, List.Forall₂ (d.LocalStands C) d.locals.toList listed ∧
    Listing listed (Mention.elements mentions)

theorem Written.perm {ms ms' : List Mention} (written : d.Written C ms) (perm : ms.Perm ms') :
    d.Written C ms' := by
  obtain ⟨listed, stand, listing⟩ := written.locals
  exact ⟨written.names.congr fun _ => (perm.filterMap _).mem_iff, listed, stand,
    listing.of_perm (perm.filterMap _)⟩

/-- All mentions: those outside named types, and those of the types that are registered. -/
def book (d : Draft) (C : Catalog) (ms : List Mention) : List Mention :=
  ms ++ d.types.names.flatMap C.mentionsOf

theorem book_append_perm (d : Draft) (C : Catalog) (ms ms' : List Mention) :
    (d.book C ms ++ ms').Perm (d.book C (ms ++ ms')) := by
  rw [book, book, List.append_assoc, List.append_assoc]
  exact List.perm_append_comm.append_left ms

/-- The draft has registered what was mentioned, `ms` outside the named types that are done. -/
structure Recorded (C : Catalog) (d : Draft) (ms : List Mention) : Prop where
  options : d.options = C.options
  pending : d.pending = []
  distinct : d.types.names.Nodup
  types : ∀ name pair, d.types.find? name = some pair → ∃ t, d.TypeStands C name pair t
  any : ∀ id, d.anyType = some id → d.Holds id .anything
  apart : ∀ o o' id, d.typeId? o = some id → d.typeId? o' = some id → o = o'
  written : d.Written C (d.book C ms)

/-- Names are entered and grammars are added. What is registered under names stays as it is. -/
structure Kept (d d' : Draft) (rs : List Registration) : Prop where
  grows : d.store.Grows d'.store
  names : Registration.Enter rs d.uris d'.uris
  types : d'.types = d.types
  anyType : d'.anyType = d.anyType
  locals : d'.locals = d.locals
  pending : d'.pending = d.pending
  options : d'.options = d.options
  globals : d'.globals = d.globals

theorem Adds.kept {rs : List Registration} (adds : d.Adds d')
    (names : Registration.Enter rs d.uris d'.uris) : d.Kept d' rs := by
  refine ⟨adds.grows, names, ?_, ?_, ?_, ?_, ?_, ?_⟩ <;> rw [adds.frame] <;> rfl

theorem kept_withStack (d : Draft) (stack : List GrammarId) (active : List QName) :
    d.Kept { d with stack, active } [] :=
  ⟨.refl _, .refl _, rfl, rfl, rfl, rfl, rfl, rfl⟩

theorem Kept.typeId? {rs : List Registration} (kept : d.Kept d' rs) (o : Origin) :
    d'.typeId? o = d.typeId? o := by
  cases o <;> simp only [Draft.typeId?, kept.types, kept.anyType]

theorem Recorded.keep {ms : List Mention} {rs : List Registration} (recorded : d.Recorded C ms)
    (kept : d.Kept d' rs) : d'.Recorded C (ms ++ enterAll rs) := by
  have typeIds (o : Origin) (id : GrammarId) (here : d.typeId? o = some id) :
      d'.typeId? o = some id := (kept.typeId? o).trans here
  have back (o : Origin) (id : GrammarId) (here : d'.typeId? o = some id) :
      d.typeId? o = some id := (kept.typeId? o).symm.trans here
  refine ⟨kept.options.trans recorded.options, kept.pending.trans recorded.pending,
    kept.types ▸ recorded.distinct, fun name pair here => ?_, fun id here => ?_,
    fun o o' id here there => recorded.apart o o' id (back o id here) (back o' id there), ?_⟩
  · rw [kept.types] at here
    obtain ⟨t, stands⟩ := recorded.types name pair here
    exact ⟨t, stands.keep kept.grows typeIds⟩
  · rw [kept.anyType] at here
    exact kept.grows.grammars (recorded.any id here)
  · have perm : (d.book C ms ++ enterAll rs).Perm (d'.book C (ms ++ enterAll rs)) := by
      have same : d.book C ms = d'.book C ms := by rw [book, book, kept.types]
      exact same ▸ book_append_perm d' C ms _
    obtain ⟨listed, stand, listing⟩ := recorded.written.locals
    refine Written.perm ⟨?_, listed, ?_, ?_⟩ perm
    · rw [Mention.registrations_append, Mention.registrations_enterAll]
      exact recorded.written.names.trans kept.names
    · rw [kept.locals]
      exact stand.imp fun e k here =>
        here.keep kept.grows typeIds fun o there => ⟨o, back o _ there⟩
    · rw [Mention.elements_append, Mention.elements_enterAll, List.append_nil]
      exact listing

theorem Recorded.keep_quiet {ms : List Mention} (recorded : d.Recorded C ms) (kept : d.Kept d' []) :
    d'.Recorded C ms := by
  have more := recorded.keep kept
  rwa [enterAll, List.map_nil, List.append_nil] at more

/-- A shared type gets its number, which nothing had before. -/
structure Claims (d d' : Draft) (o : Origin) (id : GrammarId) : Prop where
  here : d'.typeId? o = some id
  others : ∀ o', o' ≠ o → d'.typeId? o' = d.typeId? o'
  before : d.typeId? o = none
  free : ¬d.Claimed id
  store : d'.store = d.store
  locals : d'.locals = d.locals

namespace Claims

variable {o o' : Origin} {id i : GrammarId}

theorem typeIds (claims : d.Claims d' o id) (here : d.typeId? o' = some i) :
    d'.typeId? o' = some i := by
  rw [claims.others o' ?_, here]
  rintro rfl
  rw [claims.before] at here
  cases here

theorem cases_typeId (claims : d.Claims d' o id) (here : d'.typeId? o' = some i) :
    d.typeId? o' = some i ∨ o' = o ∧ i = id := by
  by_cases same : o' = o
  · subst same
    exact .inr ⟨rfl, Option.some.inj (here.symm.trans claims.here)⟩
  · exact .inl ((claims.others o' same).symm.trans here)

theorem claimed (claims : d.Claims d' o id) (here : d'.Claimed i) : d.Claimed i ∨ i = id := by
  rcases here with ⟨o', here⟩ | here
  · rcases claims.cases_typeId here with old | ⟨_, rfl⟩
    · exact .inl (.inl ⟨o', old⟩)
    · exact .inr rfl
  · rw [claims.locals] at here
    exact .inl (.inr here)

theorem grows (claims : d.Claims d' o id) : d.store.Grows d'.store := by
  rw [claims.store]
  exact .refl _

theorem apart (claims : d.Claims d' o id)
    (apart : ∀ o o' id, d.typeId? o = some id → d.typeId? o' = some id → o = o') :
    ∀ o o' id, d'.typeId? o = some id → d'.typeId? o' = some id → o = o' := by
  intro o₁ o₂ i here there
  rcases claims.cases_typeId here with old | ⟨rfl, rfl⟩ <;>
    rcases claims.cases_typeId there with old' | ⟨rfl, same⟩
  · exact apart o₁ o₂ i old old'
  · exact absurd (.inl ⟨o₁, same ▸ old⟩) claims.free
  · exact absurd (.inl ⟨o₂, old'⟩) claims.free
  · rfl

theorem written {ms : List Mention} (claims : d.Claims d' o id) (written : d.Written C ms) :
    d'.Written C ms := by
  have uris : d'.uris = d.uris := congrArg Store.uris claims.store
  obtain ⟨listed, stand, listing⟩ := written.locals
  refine ⟨uris ▸ written.names, listed, ?_, listing⟩
  rw [claims.locals]
  have standing := (List.forall₂_and_left _ _).2 ⟨fun e (mem : e ∈ d.locals.toList) => mem, stand⟩
  refine standing.imp fun e k ⟨mem, here⟩ => ?_
  refine here.keep claims.grows (fun _ _ => claims.typeIds) fun o' there => ?_
  rcases claims.cases_typeId there with old | ⟨_, same⟩
  · exact ⟨o', old⟩
  · exact absurd (.inr ⟨e, mem, same⟩) claims.free

end Claims

theorem Recorded.claimed_lt {ms : List Mention} {id : GrammarId} (recorded : d.Recorded C ms)
    (claimed : d.Claimed id) : id < d.grammars.size := by
  rcases claimed with ⟨o, here⟩ | ⟨e, mem, rfl⟩
  · cases o with
    | anyType => exact (recorded.any id here).lt
    | named name =>
      obtain ⟨pair, found, rfl⟩ := Option.map_eq_some_iff.1 here
      obtain ⟨t, stands⟩ := recorded.types name pair found
      obtain ⟨gs, holds, _⟩ := stands.grammars
      exact holds.1.lt
    | inline type => cases here
  · obtain ⟨listed, stand, _⟩ := recorded.written.locals
    obtain ⟨k, _, stands⟩ := exists_of_mem_forall₂ stand mem
    exact stands.known

theorem Recorded.declareAny {ms : List Mention} {id : GrammarId} (recorded : d.Recorded C ms)
    (claims : d.Claims { d with anyType := some id } .anyType id) (here : d.Holds id .anything) :
    Recorded C { d with anyType := some id } ms := by
  refine ⟨recorded.options, recorded.pending, recorded.distinct, fun name pair found => ?_,
    fun id' same => ?_, claims.apart recorded.apart, claims.written recorded.written⟩
  · obtain ⟨t, stands⟩ := recorded.types name pair found
    exact ⟨t, stands.keep claims.grows fun _ _ => claims.typeIds⟩
  · cases same
    exact here

theorem claims_anyType {id : GrammarId} (absent : d.anyType = none) (free : ¬d.Claimed id) :
    d.Claims { d with anyType := some id } .anyType id := by
  refine ⟨rfl, fun o ne => ?_, absent, free, rfl, rfl⟩
  cases o with
  | anyType => exact absurd rfl ne
  | named _ | inline _ => rfl

theorem claims_declareType {name : QName} {pair : GrammarPair} (absent : d.types.find? name = none)
    (free : ¬d.Claimed pair.grammar) :
    d.Claims { d with types := d.types.insert name pair } (.named name) pair.grammar := by
  refine ⟨?_, fun o ne => ?_, ?_, free, rfl, rfl⟩
  · rw [typeId?, TypeRegistry.find?_insert, if_pos rfl]
    rfl
  · cases o with
    | anyType | inline _ => rfl
    | named other =>
      rw [typeId?, TypeRegistry.find?_insert, if_neg fun same => ne (congrArg _ same)]
      rfl
  · rw [typeId?, absent]
    rfl

/-- A named type is registered. What it mentions is from now on counted under its name. -/
theorem Recorded.declareType {ms : List Mention} {name : QName} {pair : GrammarPair} {t : TypeDef}
    (recorded : d.Recorded C (ms ++ t.mentions)) (absent : d.types.find? name = none)
    (claims : d.Claims { d with types := d.types.insert name pair } (.named name) pair.grammar)
    (stands : Draft.TypeStands C { d with types := d.types.insert name pair } name pair t) :
    Recorded C { d with types := d.types.insert name pair } ms := by
  refine ⟨recorded.options, recorded.pending, ?_, fun other pair' found => ?_, recorded.any,
    claims.apart recorded.apart, claims.written (recorded.written.perm ?_)⟩
  · dsimp only
    rw [TypeRegistry.names_insert absent, List.nodup_append_comm, List.singleton_append,
      List.nodup_cons]
    exact ⟨TypeRegistry.find?_eq_none_iff.1 absent, recorded.distinct⟩
  · rw [TypeRegistry.find?_insert] at found
    split at found
    · next same =>
      subst same
      cases found
      exact ⟨t, stands⟩
    · obtain ⟨t', stands'⟩ := recorded.types other pair' found
      exact ⟨t', stands'.keep claims.grows fun _ _ => claims.typeIds⟩
  · have mentions : C.mentionsOf name = t.mentions := by
      rw [Catalog.mentionsOf, stands.listed]
      rfl
    simp only [book, TypeRegistry.names_insert absent, List.flatMap_append, List.flatMap_cons,
      List.flatMap_nil, List.append_nil, mentions, List.append_assoc]
    exact List.perm_append_comm.append_left ms

theorem Recorded.declareAgain {ms : List Mention} {name : QName} {o : Origin} {ref : NameRef}
    {type : GrammarId} (recorded : d.Recorded C ms) (found : d.uris.find? name = some ref)
    (here : d.typeId? o = some type) {e : LocalElement} (mem : e ∈ d.locals.toList)
    (same : e.name = ref ∧ e.type = type) : d.Recorded C (ms ++ [.declares name o]) := by
  obtain ⟨listed, stand, listing⟩ := recorded.written.locals
  obtain ⟨⟨name', o'⟩, mem', stands⟩ := exists_of_mem_forall₂ stand mem
  obtain ⟨rfl, rfl⟩ := same
  have shared' : o'.shared = true := by
    by_contra own
    exact stands.own (Bool.not_eq_true _ ▸ own) o here
  obtain rfl : o = o' := recorded.apart _ _ _ here (stands.shared shared')
  obtain rfl : name = name' := Option.some.inj
    ((UriTable.resolve?_of_find? found).symm.trans (UriTable.resolve?_of_find? stands.name))
  refine ⟨recorded.options, recorded.pending, recorded.distinct, recorded.types, recorded.any,
    recorded.apart, .perm ⟨?_, listed, stand, ?_⟩ (book_append_perm d C ms _)⟩
  · rw [Mention.registrations_append]
    exact (List.append_nil _).symm ▸ recorded.written.names
  · rw [Mention.elements_append]
    exact listing.again shared' mem'

/-- The number has been given since a draft, and nothing has claimed it. -/
structure Free (d₀ d : Draft) (id : GrammarId) : Prop where
  fresh : d₀.grammars.size ≤ id
  free : ¬d.Claimed id

/-- The number of an element's type: the shared one, or one that no other element has. -/
structure Grants (d₀ d : Draft) (o : Origin) (type : GrammarId) : Prop where
  shared : o.shared = true → d.typeId? o = some type
  own : o.shared = false → d₀.Free d type

theorem localGrammar?_eq_none_iff {ref : NameRef} {type : GrammarId} :
    d.localGrammar? ref type = none ↔ ∀ e ∈ d.locals.toList, ¬(e.name = ref ∧ e.type = type) := by
  simp only [localGrammar?, Option.map_eq_none_iff, Array.find?_eq_none, Bool.and_eq_true,
    beq_iff_eq, Array.mem_toList_iff]

theorem Recorded.declareNew {d₀ : Draft} {ms : List Mention} {name : QName} {o : Origin} {ref : NameRef}
    {type id : GrammarId} (recorded : d.Recorded C ms) (found : d.uris.find? name = some ref)
    (grants : d₀.Grants d o type) (known : type < d.grammars.size) (bears : d.Bears id (C.held o))
    (absent : d.localGrammar? ref type = none) :
    Recorded C { d with locals := d.locals.push ⟨ref, type, id⟩ } (ms ++ [.declares name o]) := by
  have grows : d.store.Grows d.store := .refl _
  have keep {e : LocalElement} {k : QName × Origin} (stands : d.LocalStands C e k) :
      Draft.LocalStands C { d with locals := d.locals.push ⟨ref, type, id⟩ } e k :=
    stands.keep grows (fun _ _ here => here) fun o here => ⟨o, here⟩
  have own (alone : o.shared = false) (o' : Origin) : d.typeId? o' ≠ some type :=
    fun here => (grants.own alone).free (.inl ⟨o', here⟩)
  obtain ⟨listed, stand, listing⟩ := recorded.written.locals
  refine ⟨recorded.options, recorded.pending, recorded.distinct, fun name pair found => ?_,
    recorded.any, recorded.apart,
    .perm ⟨?_, listed ++ [(name, o)], ?_, ?_⟩ (book_append_perm _ C ms _)⟩
  · obtain ⟨t, stands⟩ := recorded.types name pair found
    exact ⟨t, stands.keep grows fun _ _ here => here⟩
  · rw [Mention.registrations_append]
    exact (List.append_nil _).symm ▸ recorded.written.names
  · rw [Array.toList_push]
    exact List.rel_append (stand.imp fun _ _ => keep)
      (.cons (keep ⟨found, grants.shared, own, known, bears⟩) .nil)
  · rw [Mention.elements_append]
    refine listing.add fun shared mem => ?_
    obtain ⟨e, mem', stands⟩ := exists_of_mem_forall₂ stand.flip mem
    refine localGrammar?_eq_none_iff.1 absent e mem' ⟨?_, ?_⟩
    · exact Option.some.inj (stands.name.symm.trans found)
    · exact Option.some.inj ((stands.shared shared).symm.trans (grants.shared shared))

/-- Later drafts keep the numbers of shared types, claim only numbers that stood for nothing, and do
not register a name whose type is being compiled. -/
structure Keeps (d d' : Draft) : Prop where
  size : d.grammars.size ≤ d'.grammars.size
  typeIds : ∀ o id, d.typeId? o = some id → d'.typeId? o = some id
  claims : ∀ id, id < d.grammars.size → d'.Claimed id → d.Claimed id
  waiting : ∀ name ∈ d.active, d.types.find? name = none → d'.types.find? name = none
  globals : d'.globals = d.globals

theorem Keeps.refl (d : Draft) : d.Keeps d :=
  ⟨le_rfl, fun _ _ => id, fun _ _ => id, fun _ _ => id, rfl⟩

theorem Keeps.trans {e : Draft} (first : d.Keeps d') (second : d'.Keeps e)
    (same : d'.active = d.active) : d.Keeps e :=
  ⟨first.size.trans second.size, fun o id here => second.typeIds o id (first.typeIds o id here),
    fun id lt claimed => first.claims id lt (second.claims id (lt.trans_le first.size) claimed),
    fun name mem absent => second.waiting name (same ▸ mem) (first.waiting name mem absent),
    second.globals.trans first.globals⟩

theorem Kept.claimed {rs : List Registration} {id : GrammarId} (kept : d.Kept d' rs)
    (claimed : d'.Claimed id) : d.Claimed id := by
  rcases claimed with ⟨o, here⟩ | here
  · exact .inl ⟨o, (kept.typeId? o).symm.trans here⟩
  · exact .inr (kept.locals ▸ here)

theorem Kept.keeps {rs : List Registration} (kept : d.Kept d' rs) : d.Keeps d' :=
  ⟨size_le_of_grows kept.grows, fun o _ here => (kept.typeId? o).trans here,
    fun _ _ => kept.claimed, fun _ _ absent => kept.types ▸ absent, kept.globals⟩

theorem Keeps.free {d₀ : Draft} {id : GrammarId} (keeps : d.Keeps d') (free : d₀.Free d id)
    (known : id < d.grammars.size) : d₀.Free d' id :=
  ⟨free.fresh, fun claimed => free.free (keeps.claims id known claimed)⟩

theorem Keeps.grants {d₀ : Draft} {o : Origin} {id : GrammarId} (keeps : d.Keeps d')
    (grants : d₀.Grants d o id) (known : id < d.grammars.size) : d₀.Grants d' o id :=
  ⟨fun shared => keeps.typeIds o id (grants.shared shared),
    fun own => keeps.free (grants.own own) known⟩

end Draft

end ExiSchema
