import ExiSchema.Proofs.Model.Faults
import ExiSchema.Proofs.Sorted.Order
import ExiSchema.Proofs.Text.Order
import ExiSchema.Sorted.Elements

/-!
Elements in the order of their names. An element that is known by its rows has an entry with its
canonical rows, and of entries with different names the order is determined by the names.
-/

set_option autoImplicit false

namespace ExiSchema

namespace NamedElement

/-- The codes of both names decide, those of the namespace first. -/
def compareCodes : NamedElement → NamedElement → Ordering :=
  compareLex (compareOn fun e => e.uri.codes) (compareOn fun e => e.localName.codes)

instance : Std.TransCmp compareCodes :=
  inferInstanceAs (Std.TransCmp (compareLex (compareOn fun e : NamedElement => e.uri.codes)
    (compareOn fun e : NamedElement => e.localName.codes)))

theorem compareName_eq (a b : NamedElement) : compareName b.uri b.localName a = compareCodes a b := by
  rw [compareName, Label.compare_eq, Label.compare_eq]
  rfl

theorem le_iff {a b : NamedElement} : a.le b = true ↔ (compareCodes a b).isLE = true := by
  rw [le, compareName_eq]

theorem le_trans {a b c : NamedElement} (first : a.le b = true) (second : b.le c = true) :
    a.le c = true :=
  le_iff.2 (Std.TransCmp.isLE_trans (le_iff.1 first) (le_iff.1 second))

theorem le_total (a b : NamedElement) : (a.le b || b.le a) = true := by
  rw [Bool.or_eq_true, le_iff, le_iff]
  by_cases first : (compareCodes a b).isLE = true
  · exact .inl first
  · refine .inr ?_
    rw [Std.OrientedCmp.lt_of_not_isLE first]
    rfl

theorem pairwise_mergeSort (es : List NamedElement) :
    (es.mergeSort le).Pairwise fun a b => a.le b = true := by
  have trans (a b c : NamedElement) : a.le b = true → b.le c = true → a.le c = true := le_trans
  exact List.pairwise_mergeSort trans le_total es

theorem le_iff_ne_gt {a b : NamedElement} :
    a.le b = true ↔ compareName b.uri b.localName a ≠ .gt := by
  rw [le]
  cases compareName b.uri b.localName a <;> decide

theorem le_refl (a : NamedElement) : a.le a = true :=
  (Bool.or_eq_true _ _ ▸ le_total a a).elim id id

theorem name_eq_of_compareCodes {a b : NamedElement} (same : compareCodes a b = .eq) :
    a.name = b.name := by
  obtain ⟨uri, localName⟩ := Ordering.then_eq_eq.1 same
  have uri := Label.codes_injective (Std.LawfulEqCmp.eq_of_compare uri)
  have localName := Label.codes_injective (Std.LawfulEqCmp.eq_of_compare localName)
  rw [name, name, uri, localName]

theorem name_eq_of_le {a b : NamedElement} (first : a.le b = true) (second : b.le a = true) :
    a.name = b.name :=
  name_eq_of_compareCodes (Std.OrientedCmp.isLE_antisymm (le_iff.1 first) (le_iff.1 second))

theorem exists_ofOld {t : UriTable} {ref : NameRef} {q : QName} (id : GrammarId)
    (here : t.resolve? ref = some q) : ∃ e, ofOld t.sorted ref id = .ok e := by
  obtain ⟨ref', moved, there⟩ := UriTable.resolve?_sorted here
  obtain ⟨uri, name, label, label', _⟩ := UriTable.resolve?_eq_some_iff.1 there
  exact ⟨⟨uri, name, ref', id⟩, by simp only [ofOld, moved, bind, Except.bind, label, label']⟩

theorem ofOld_eq_ok {t : UriTable} {ref : NameRef} {q : QName} {id : GrammarId} {e : NamedElement}
    (here : t.resolve? ref = some q) (run : ofOld t.sorted ref id = .ok e) :
    e.name = q ∧ t.sorted.mapping.ref ref = .ok e.ref ∧ e.grammar = id := by
  obtain ⟨ref', moved, there⟩ := UriTable.resolve?_sorted here
  obtain ⟨uri, name, label, label', rfl⟩ := UriTable.resolve?_eq_some_iff.1 there
  simp only [ofOld, moved, bind, Except.bind, label, label'] at run
  cases run
  exact ⟨rfl, moved, rfl⟩

theorem exists_sortedEntries {t : UriTable} {elements : List (NameRef × GrammarId)}
    (names : ∀ e ∈ elements, ∃ q, t.resolve? e.1 = some q) :
    ∃ entries, sortedEntries t.sorted elements = .ok entries := by
  cases run : sortedEntries t.sorted elements with
  | ok entries => exact ⟨entries, rfl⟩
  | error f =>
    rcases except_bind_eq_error run with bad | ⟨_, _, done⟩
    · obtain ⟨⟨old, id⟩, mem, bad⟩ := except_mapM_eq_error bad
      obtain ⟨q, here⟩ := names _ mem
      obtain ⟨e, good⟩ := exists_ofOld id here
      cases good.symm.trans bad
    · cases done

theorem sortedEntries_eq_ok {sorted : CanonicalTables} {elements : List (NameRef × GrammarId)}
    {entries : List NamedElement} (run : sortedEntries sorted elements = .ok entries) :
    ∃ unsorted, List.Forall₂ (fun x e => ofOld sorted x.1 x.2 = .ok e) elements unsorted ∧
      entries = unsorted.mergeSort le := by
  obtain ⟨unsorted, each, done⟩ := except_bind_eq_ok.1 run
  cases done
  exact ⟨unsorted, except_mapM_eq_ok.1 each, rfl⟩

end NamedElement

namespace ElementIndex

variable {index : ElementIndex} {uri localName : Label} {k : Nat}

/-- Halving keeps the last entry that does not stand behind the name. -/
theorem bisect_eq
    (upTo : ∀ i e, index.get? i = some e → i ≤ k → NamedElement.compareName uri localName e ≠ .gt)
    (behind : ∀ i e, index.get? i = some e → k < i →
      NamedElement.compareName uri localName e = .gt) (first count : Nat) (least : first ≤ k)
    (most : k < first + count) (inside : first + count ≤ index.size) :
    index.bisect uri localName first count = k := by
  fun_induction bisect index uri localName first count with
  | case1 first count more middle greater ih =>
    obtain ⟨e, here, greater⟩ := Option.map_eq_some_iff.1 greater
    have before : k < middle := by
      by_contra not
      exact upTo middle e here (Nat.not_lt.1 not) greater
    exact ih least (by omega) (by omega)
  | case2 first count more middle notGreater ih =>
    have known : middle < index.entries.size := lt_of_lt_of_le (by omega) inside
    have here : index.get? middle = some index.entries[middle] := Array.getElem?_eq_getElem known
    have after : middle ≤ k := by
      by_contra not
      refine notGreater ?_
      rw [here, Option.map_some, behind middle _ here (Nat.not_le.1 not)]
    exact ih after (by omega) (by omega)
  | case3 first count one => omega

/-- Among sorted entries, halving comes to the one behind which no other has its name. -/
theorem bisect_sorted {before after : List NamedElement} {e : NamedElement}
    (sorted : (before ++ e :: after).Pairwise fun a b => a.le b = true)
    (last : ∀ x ∈ after, x.name ≠ e.name) :
    bisect ⟨(before ++ e :: after).toArray⟩ e.uri e.localName 0 (before ++ e :: after).length =
      before.length := by
  obtain ⟨_, rest, early⟩ := List.pairwise_append.1 sorted
  obtain ⟨late, _⟩ := List.pairwise_cons.1 rest
  have at? (i : Nat) : get? ⟨(before ++ e :: after).toArray⟩ i = (before ++ e :: after)[i]? :=
    List.getElem?_toArray
  refine bisect_eq (fun i x here le => ?_) (fun i x here lt => ?_) 0 _ (Nat.zero_le _)
    (by simp) (by simp [size])
  · rw [at?] at here
    refine NamedElement.le_iff_ne_gt.1 ?_
    rcases le.lt_or_eq with lt | rfl
    · rw [List.getElem?_append_left lt] at here
      exact early x (List.mem_of_getElem? here) e List.mem_cons_self
    · rw [List.getElem?_append_right le_rfl, Nat.sub_self] at here
      cases here
      exact NamedElement.le_refl e
  · obtain ⟨k, rfl⟩ := Nat.exists_eq_add_of_lt lt
    rw [at?, List.getElem?_append_right lt.le, Nat.add_assoc, Nat.add_sub_cancel_left] at here
    have mem : x ∈ after := List.mem_of_getElem? here
    -- sorted behind `e` and not greater: an entry of the same name
    by_contra notGreater
    exact last x mem
      (NamedElement.name_eq_of_le (NamedElement.le_iff_ne_gt.2 notGreater) (late x mem))

/-- Among sorted entries, the last one of a name is found. -/
theorem lookup_of_last {before after : List NamedElement} {e : NamedElement}
    (sorted : (before ++ e :: after).Pairwise fun a b => a.le b = true)
    (last : ∀ x ∈ after, x.name ≠ e.name) :
    lookup ⟨(before ++ e :: after).toArray⟩ e.name = some e := by
  have uri : Label.ofText? e.name.uri = some e.uri := Label.ofText?_eq_some_iff.2 rfl
  have localName : Label.ofText? e.name.localName = some e.localName :=
    Label.ofText?_eq_some_iff.2 rfl
  have here : get? ⟨(before ++ e :: after).toArray⟩ before.length = some e := by
    rw [get?, List.getElem?_toArray, List.getElem?_append_right le_rfl, Nat.sub_self]
    rfl
  have same : NamedElement.compareName e.uri e.localName e = .eq := by
    rw [NamedElement.compareName_eq]
    exact Std.ReflCmp.compare_self
  simp only [lookup, uri, localName, size, List.size_toArray, bisect_sorted sorted last, here, bind,
    Option.bind, same, if_true]

/-- What is found has the name. -/
theorem mem_of_lookup {entries : List NamedElement} {q : QName} {e : NamedElement}
    (found : lookup ⟨entries.toArray⟩ q = some e) : e ∈ entries ∧ e.name = q := by
  simp only [lookup, Option.bind_eq_bind, Option.bind_eq_some_iff, Option.ite_none_right_eq_some,
    Option.some.injEq, Label.ofText?_eq_some_iff] at found
  obtain ⟨uri, uriText, localName, localText, entry, here, same, rfl⟩ := found
  refine ⟨List.mem_toArray.1 (Array.mem_of_getElem? here), ?_⟩
  have asked : NamedElement.compareCodes entry { entry with uri, localName } = .eq := by
    rw [← NamedElement.compareName_eq]
    exact same
  rw [NamedElement.name_eq_of_compareCodes asked, NamedElement.name, uriText, localText]

/-- Halving finds what a search from the end finds. -/
theorem lookup_eq_find? {entries : List NamedElement}
    (sorted : entries.Pairwise fun a b => a.le b = true) (q : QName) :
    lookup ⟨entries.toArray⟩ q = entries.reverse.find? fun e => e.name == q := by
  cases last : entries.reverse.find? fun e => e.name == q with
  | some e =>
    obtain ⟨same, after, before, split, others⟩ := List.find?_eq_some_iff_append.1 last
    obtain rfl : e.name = q := by simpa using same
    have split : entries = before.reverse ++ e :: after.reverse := by
      rw [← List.reverse_reverse entries, split]
      simp
    subst split
    exact lookup_of_last sorted fun x mem => by simpa using others x (List.mem_reverse.1 mem)
  | none =>
    refine Option.eq_none_iff_forall_ne_some.2 fun e found => ?_
    obtain ⟨mem, same⟩ := mem_of_lookup found
    have absent := List.find?_eq_none.1 last e (List.mem_reverse.2 mem)
    simp [same] at absent

/-- Of a name that stands once among sorted entries, the entry is found. -/
theorem lookup_of_count {entries : List NamedElement} {e : NamedElement} (mem : e ∈ entries)
    (sorted : entries.Pairwise fun a b => a.le b = true)
    (once : (entries.map NamedElement.name).count e.name = 1) :
    lookup ⟨entries.toArray⟩ e.name = some e := by
  obtain ⟨before, after, rfl⟩ := List.append_of_mem mem
  refine lookup_of_last sorted fun x mem same => ?_
  rw [List.map_append, List.map_cons, List.count_append, List.count_cons_self] at once
  have twice := List.count_pos_iff.2 (same ▸ List.mem_map_of_mem (f := NamedElement.name) mem)
  omega

end ElementIndex

end ExiSchema
