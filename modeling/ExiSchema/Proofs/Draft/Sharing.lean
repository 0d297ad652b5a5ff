import ExiSchema.Proofs.Draft.Collecting
import ExiSchema.Proofs.Draft.Finishing
import ExiSchema.Proofs.Sorted.Stability

/-!
Local elements are shared. Of one name and one type there is one entry, with a copy of the grammar of
the type, and declaring it again gives the same grammar and changes nothing, whoever declares it: a
walk over a type, a session, or the settling of what was put off. Finishing puts the entries in the
order of their names.
-/

set_option autoImplicit false

namespace ExiSchema

theorem eraseDups_map {α β : Type} [BEq α] [LawfulBEq α] [BEq β] [LawfulBEq β] {f : α → β}
    {xs : List α} (injective : ∀ a ∈ xs, ∀ b ∈ xs, f a = f b → a = b) :
    (xs.map f).eraseDups = xs.eraseDups.map f := by
  induction xs using List.reverseRecOn with
  | nil => rfl
  | append_singleton xs x ih =>
    have among : f x ∈ xs.map f ↔ x ∈ xs := by
      refine ⟨fun mem => ?_, List.mem_map_of_mem⟩
      obtain ⟨y, inside, same⟩ := List.mem_map.1 mem
      exact injective y (by simp [inside]) x (by simp) same ▸ inside
    have rest := ih fun a inside b inside' =>
      injective a (List.mem_append_left _ inside) b (List.mem_append_left _ inside')
    rw [List.map_append, List.map_singleton, eraseDups_concat, eraseDups_concat, rest]
    simp only [among]
    split
    · rfl
    · rw [List.map_append, List.map_singleton]

namespace UriTable

variable {t : UriTable} {ref ref' : NameRef}

/-- Only rows that stand in the tables are moved. -/
theorem exists_resolve?_of_moved (moved : t.sorted.mapping.ref ref = .ok ref') :
    ∃ q, t.resolve? ref = some q := by
  obtain ⟨u, place, rest⟩ := except_bind_eq_ok.1 moved
  obtain ⟨n, place', _⟩ := except_bind_eq_ok.1 rest
  have inside := isSome_sortedPlace?.1 (Option.isSome_of_eq_some (uri_eq_ok_iff.1 place))
  rw [length_sortedRows] at inside
  have here : t.get? ref.uri = some t.rows[ref.uri] := Array.getElem?_eq_getElem inside
  cases has : t.rows[ref.uri].names with
  | none =>
    rw [Relocation.name, sorted_names here, sortedRow, has] at place'
    cases place'
  | some names =>
    have inside' := isSome_sortedPlace?.1
      (Option.isSome_of_eq_some ((name_eq_ok_iff here has).1 place'))
    refine ⟨_, resolve?_eq_some_iff.2 ⟨t.rows[ref.uri].label, names.rows.toList[ref.name].label, ?_,
      ?_, rfl⟩⟩
    · exact Option.map_eq_some_iff.2 ⟨_, here, rfl⟩
    · refine Option.bind_eq_some_iff.2 ⟨names, ?_, Option.map_eq_some_iff.2 ⟨_, ?_, rfl⟩⟩
      · rw [names?, here]
        exact has
      · rw [Table.get?, ← Array.getElem?_toList]
        exact List.getElem?_eq_getElem inside'

end UriTable

namespace NamedElement

theorem le_of_name_eq {a b : NamedElement} (same : a.name = b.name) : a.le b = true := by
  have uri : a.uri = b.uri := Label.text_injective (congrArg QName.uri same)
  have localName : a.localName = b.localName := Label.text_injective (congrArg QName.localName same)
  rw [le, ← uri, ← localName]
  exact le_refl a

/-- Sorting leaves elements of one name in their order. -/
theorem filter_mergeSort (es : List NamedElement) (q : QName) :
    (es.mergeSort le).filter (fun e => e.name = q) = es.filter fun e => e.name = q := by
  have trans (a b c : NamedElement) : a.le b = true → b.le c = true → a.le c = true := le_trans
  have alike : (es.filter fun e => e.name = q).Pairwise fun a b => a.le b = true := by
    refine List.pairwise_of_forall_mem_list fun a mem b mem' => le_of_name_eq ?_
    have same : a.name = q := by simpa using (List.mem_filter.1 mem).2
    have same' : b.name = q := by simpa using (List.mem_filter.1 mem').2
    rw [same, same']
  have sublist := (List.sublist_mergeSort trans le_total alike List.filter_sublist).filter
    fun e => decide (e.name = q)
  simp only [List.filter_filter, Bool.and_self] at sublist
  exact (sublist.eq_of_length ((List.mergeSort_perm es le).filter _).length_eq.symm).symm

end NamedElement

namespace Operation

theorem reachable_afterAll (ops : List Operation) :
    ∀ {d : Draft}, d.Reachable → (afterAll ops d).Reachable := by
  induction ops with
  | nil => exact id
  | cons op ops ih => exact fun reachable => ih (.after reachable op)

end Operation

namespace Draft

variable {d d' : Draft} {ms ms' : List LocalElement} {c : CompiledSchema} {name : NameRef}
  {type id : GrammarId}

/-- No two local elements have one name and one type. -/
def Keyed (d : Draft) : Prop := (d.locals.toList.map LocalElement.key).Nodup

theorem Move.keyed (move : d.Move d') (keyed : d.Keyed) : d'.Keyed := by
  cases move with
  | declareLocal absent _ _ =>
    rw [Keyed, Array.toList_push, List.map_append, List.map_singleton, List.nodup_append_comm,
      List.singleton_append, List.nodup_cons]
    refine ⟨fun mem => ?_, keyed⟩
    obtain ⟨e, inside, same⟩ := List.mem_map.1 mem
    exact localGrammar?_eq_none_iff.1 absent e inside (Prod.mk.injEq .. ▸ same)
  | _ => exact keyed

theorem Ripe.keyed (ripe : d.Ripe) : d.Keyed :=
  ripe.kept (fun _ => List.nodup_nil) (fun _ _ move => move.keyed) fun _ _ _ _ => id

theorem Keyed.eq_of_key (keyed : d.Keyed) {a b : LocalElement} (mem : a ∈ d.locals.toList)
    (mem' : b ∈ d.locals.toList) (same : a.key = b.key) : a = b :=
  List.inj_on_of_nodup_map keyed mem mem' same

theorem Keyed.localGrammar?_iff (keyed : d.Keyed) :
    d.localGrammar? name type = some id ↔ ⟨name, type, id⟩ ∈ d.locals.toList := by
  constructor
  · intro found
    obtain ⟨l, mem, rfl, rfl, rfl⟩ := exists_of_localGrammar? found
    exact Array.mem_toList_iff.2 mem
  · intro mem
    cases found : d.localGrammar? name type with
    | none => exact absurd ⟨rfl, rfl⟩ (localGrammar?_eq_none_iff.1 found _ mem)
    | some id' =>
      obtain ⟨l, mem', rfl, rfl, rfl⟩ := exists_of_localGrammar? found
      rw [← keyed.eq_of_key mem (Array.mem_toList_iff.2 mem') rfl]

theorem Collects.localGrammar? (collects : d.Collects ms d')
    (found : d.localGrammar? name type = some id) : d'.localGrammar? name type = some id := by
  have front : d.locals.toList <+: d'.locals.toList :=
    collects.locals ▸ prefix_foldl_keepFirst ms d.locals.toList
  obtain ⟨l, there, rfl⟩ := Option.map_eq_some_iff.1 found
  rw [← Array.find?_toList] at there
  refine Option.map_eq_some_iff.2 ⟨l, ?_, rfl⟩
  rw [← Array.find?_toList]
  exact front.find?_eq_some there

/-- The local elements are those that were declared, one for each name and type and in the order of the
first declarations. Each has a copy of the grammar of its type, and declaring it again, now or at any
later time, gives that grammar and changes nothing. -/
structure Shares (d : Draft) (ms : List LocalElement) : Prop where
  listed : d.locals.toList = ms.eraseDups
  pairs : d.locals.toList.map LocalElement.key = (ms.map LocalElement.key).eraseDups
  found : ∀ name type id, d.localGrammar? name type = some id ↔ ⟨name, type, id⟩ ∈ ms
  copies : ∀ m ∈ ms, ∃ g, d.Holds m.type g ∧ d.Holds m.grammar g
  again : ∀ m ∈ ms, ∀ ops, (Operation.declareLocal m.name m.type).run (Operation.afterAll ops d) =
    .ok (.grammar m.grammar) (Operation.afterAll ops d)

theorem shares_of_listed (listed : d.locals.toList = ms.eraseDups) (keyed : d.Keyed)
    (filed : d.Filed) (sound : d.store.Sound) : d.Shares ms := by
  have mem_iff (m : LocalElement) : m ∈ d.locals.toList ↔ m ∈ ms := by
    rw [listed, List.mem_eraseDups]
  have found (name : NameRef) (type id : GrammarId) :
      d.localGrammar? name type = some id ↔ ⟨name, type, id⟩ ∈ ms :=
    keyed.localGrammar?_iff.trans (mem_iff _)
  refine ⟨listed, ?_, found, fun m mem => ?_, fun m mem ops => ?_⟩
  · rw [listed, eraseDups_map]
    intro a mem b mem'
    exact keyed.eq_of_key ((mem_iff a).2 mem) ((mem_iff b).2 mem')
  · exact filed.locals m (Array.mem_toList_iff.1 ((mem_iff m).2 mem))
  · have later := (Operation.collects_all ops sound).localGrammar? ((found _ _ _).2 mem)
    rw [Operation.run]
    change EStateM.bind _ _ _ = _
    rw [EStateM.bind, declareLocal_of_found later]
    rfl

/-- The entry is that of the local element, over canonical rows. -/
structure LocalEntry (d : Draft) (l : LocalElement) (e : NamedElement) : Prop where
  name : d.uris.resolve? l.name = some e.name
  ref : d.uris.sorted.mapping.ref l.name = .ok e.ref
  grammar : e.grammar = l.grammar

/-- The local elements of the schema are those of the draft, all of them and each once, in the order of
their names; those of one name are in the order in which they were declared. -/
def SortsLocals (d : Draft) (c : CompiledSchema) : Prop :=
  ∃ entries, List.Forall₂ d.LocalEntry d.locals.toList entries ∧ c.locals.Perm entries ∧
    (c.locals.Pairwise fun a b => a.le b = true) ∧
    ∀ q, c.locals.filter (fun e => e.name = q) = entries.filter fun e => e.name = q

theorem Compiles.sortsLocals (compiles : d.Compiles c) : d.SortsLocals c := by
  obtain ⟨unsorted, each, sorted⟩ := compiles.locals
  refine ⟨unsorted, each.imp fun l e run => ?_, ?_, ?_, ?_⟩
  · obtain ⟨ref, moved, _⟩ := except_bind_eq_ok.1 run
    obtain ⟨q, here⟩ := UriTable.exists_resolve?_of_moved moved
    obtain ⟨rfl, goes, grammar⟩ := NamedElement.ofOld_eq_ok here run
    exact ⟨here, goes, grammar⟩
  · exact sorted ▸ List.mergeSort_perm unsorted _
  · exact sorted ▸ NamedElement.pairwise_mergeSort unsorted
  · exact sorted ▸ NamedElement.filter_mergeSort unsorted

/-- The drafts that may be finished, with all the local elements that were declared on the way, also
those that were there already. -/
inductive Made : Draft → List LocalElement → Prop where
  | session (options : Options) (ops : List Operation) :
    Made (Operation.afterAll ops (start options)) (Operation.allLocals ops (start options))
  | entered {s : Schema} {options : Options} {d : Draft}
    (run : addSchema s (start options) = .ok () d) : Made d (schemaLocals s (start options))

namespace Made

variable (made : d.Made ms)
include made

theorem ripe : d.Ripe := by
  cases made with
  | session options ops => exact .reached (Operation.reachable_afterAll ops (.start options))
  | entered run => exact .entered run

theorem collects : ∃ options, (start options).Collects ms d := by
  cases made with
  | session options ops => exact ⟨options, Operation.collects_all ops (sound_start options)⟩
  | @entered s options d run =>
    exact ⟨options, (collecting_addSchema s _ (sound_start options)).ok_of_eq run⟩

theorem listed : d.locals.toList = ms.eraseDups := by
  obtain ⟨options, collects⟩ := made.collects
  rw [collects.locals, ← foldl_keepFirst]
  rfl

end Made

/-- Local elements are shared in every draft, and finishing keeps it so: what was put off is declared
like all others, and the schema has the entries in the order of their names. -/
theorem Made.shares_locals (made : d.Made ms) :
    d.Shares ms ∧ ∀ c d', finish d = .ok c d' →
      d'.Shares (ms ++ settledLocals d.pending { d with pending := [] }) ∧ d'.SortsLocals c := by
  have ripe := made.ripe
  refine ⟨shares_of_listed made.listed ripe.keyed ripe.filed ripe.sound, fun c d' run => ?_⟩
  obtain ⟨settled, canonical⟩ := exists_of_finish run
  obtain ⟨moves, compiles⟩ := ripe.moves_of_settled settled canonical
  refine ⟨shares_of_listed ?_ ?_ ?_ ?_, compiles.sortsLocals⟩
  · have begun : settle d.pending { d with pending := [] } = .ok () d' := settled
    have sound : Store.Sound { d with pending := [] }.store := ripe.sound
    have collects := (collecting_settle d.pending _ sound).ok_of_eq begun
    rw [collects.locals, ← foldl_keepFirst, List.foldl_append, foldl_keepFirst, ← made.listed]
  · exact moves.invariant (fun _ _ move => move.keyed) ripe.keyed
  · exact moves.invariant (fun _ _ move => move.filed)
      ⟨ripe.filed.types, ripe.filed.anyType, ripe.filed.locals⟩
  · exact moves.grows.sound ripe.sound

/-- A type with an element of any type, which is then declared once more, and one of the type itself. -/
def sharingSession : List Operation :=
  [.typeGrammars (pairType "t" ⟨⟨"urn:b", "x"⟩, [], none⟩ ⟨⟨"urn:a", "y"⟩, [], some (listType "t")⟩),
    .declareLocal ⟨4, 0⟩ 0]

theorem sharingSession_shares_locals : ∃ d c d', Made d [⟨⟨4, 0⟩, 0, 1⟩, ⟨⟨4, 0⟩, 0, 1⟩] ∧
    d.pending.length = 1 ∧ finish d = .ok c d' ∧ d.Shares [⟨⟨4, 0⟩, 0, 1⟩, ⟨⟨4, 0⟩, 0, 1⟩] ∧
    d'.Shares [⟨⟨4, 0⟩, 0, 1⟩, ⟨⟨4, 0⟩, 0, 1⟩, ⟨⟨5, 0⟩, 4, 6⟩] ∧ d'.SortsLocals c := by
  have made := Made.session {} sharingSession
  have declared : Operation.allLocals sharingSession (start {}) =
      [⟨⟨4, 0⟩, 0, 1⟩, ⟨⟨4, 0⟩, 0, 1⟩] := by decide +kernel
  have late : settledLocals (Operation.afterAll sharingSession (start {})).pending
      { Operation.afterAll sharingSession (start {}) with pending := [] } = [⟨⟨5, 0⟩, 4, 6⟩] := by
    decide +kernel
  obtain ⟨_, d', settled, globals, locals, empty⟩ := exists_of_yields
    (show Yields settlePending (Operation.afterAll sharingSession (start {}))
      (fun _ d' => (∀ e ∈ d'.globals, (d'.uris.resolve? e.name).isSome = true) ∧
        (∀ e ∈ d'.locals, (d'.uris.resolve? e.name).isSome = true) ∧ d'.stack = [])
      fun _ _ => False by decide +kernel)
  obtain ⟨c, run⟩ := made.ripe.exists_finish_of_settled settled globals locals empty
  obtain ⟨shares, finished⟩ := made.shares_locals
  obtain ⟨shares', sorts⟩ := finished c d' run
  rw [late] at shares'
  rw [declared] at made shares shares'
  exact ⟨_, c, d', made, by decide +kernel, run, shares, shares', sorts⟩

end Draft

end ExiSchema
