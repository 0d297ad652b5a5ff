import ExiSchema.Grammar.References
import ExiSchema.Proofs.Grammar.Alike

/-!
The places of productions: each is named by one address, the references of a list of grammars stand
in the order of their addresses, and there is one for each production that names something.
-/

set_option autoImplicit false

namespace ExiSchema

/-- The reference of the production at an address, if it names something. -/
def Production.reference? (p : Production) (a : Address) : Option RowReference :=
  p.event.uri?.map fun uri => ⟨a, uri, p.event.name?.map NameRef.name⟩

theorem pairwise_zipIdx {α : Type} (l : List α) : l.zipIdx.Pairwise fun a b => a.2 < b.2 := by
  have rising : (l.zipIdx.map Prod.snd).Pairwise (· < ·) := by
    rw [List.zipIdx_map_snd]
    exact List.pairwise_lt_range'
  exact List.pairwise_map.1 rising

/-- Grammars come first, then rules, then productions. -/
def Address.Before (a b : Address) : Prop :=
  a.grammar < b.grammar ∨ a.grammar = b.grammar ∧
    (a.rule < b.rule ∨ a.rule = b.rule ∧ a.production < b.production)

theorem Address.Before.ne {a b : Address} (before : a.Before b) : a ≠ b := by
  rintro rfl
  rcases before with less | ⟨_, less | ⟨_, less⟩⟩ <;> exact Nat.lt_irrefl _ less

namespace Grammar

/-- The references of all grammars in a list. -/
def allReferences (grammars : List Grammar) : List RowReference :=
  grammars.zipIdx.flatMap fun e => e.1.references e.2

theorem mem_indexed_iff {g : Grammar} {i j : Nat} {p : Production} :
    (i, j, p) ∈ g.indexed ↔ g.production? i j = some p := by
  simp only [indexed, List.mem_flatMap, List.mem_map, production?, rule?, Option.bind_eq_some_iff,
    Prod.exists, List.mem_zipIdx_iff_getElem?, Array.getElem?_toList, Prod.mk.injEq]
  constructor
  · rintro ⟨r, _, rule, _, _, here, rfl, rfl, rfl⟩
    exact ⟨r, rule, here⟩
  · rintro ⟨r, rule, here⟩
    exact ⟨r, i, rule, p, j, here, rfl, rfl, rfl⟩

theorem mem_references_iff {g : Grammar} {id : GrammarId} {ref : RowReference} :
    ref ∈ g.references id ↔ ref.address.grammar = id ∧
      ∃ p, g.production? ref.address.rule ref.address.production = some p ∧
        p.reference? ref.address = some ref := by
  simp only [references, List.mem_filterMap, Production.reference?, Option.map_eq_some_iff,
    Prod.exists, mem_indexed_iff]
  constructor
  · rintro ⟨i, j, p, here, uri, refers, rfl⟩
    exact ⟨rfl, p, here, uri, refers, rfl⟩
  · rintro ⟨rfl, p, here, uri, refers, same⟩
    exact ⟨_, _, p, here, uri, refers, same⟩

theorem mem_allReferences_iff {grammars : Array Grammar} {ref : RowReference} :
    ref ∈ allReferences grammars.toList ↔
      ∃ p, productionAt? grammars ref.address = some p ∧ p.reference? ref.address = some ref := by
  simp only [allReferences, List.mem_flatMap, Prod.exists, List.mem_zipIdx_iff_getElem?,
    Array.getElem?_toList, mem_references_iff, productionAt?, Option.bind_eq_some_iff]
  constructor
  · rintro ⟨g, _, known, rfl, p, here, refers⟩
    exact ⟨p, ⟨g, known, here⟩, refers⟩
  · rintro ⟨p, ⟨g, known, here⟩, refers⟩
    exact ⟨g, _, known, rfl, p, here, refers⟩

theorem pairwise_indexed (g : Grammar) :
    g.indexed.Pairwise fun a b => a.1 < b.1 ∨ a.1 = b.1 ∧ a.2.1 < b.2.1 := by
  unfold indexed
  rw [List.pairwise_flatMap]
  constructor
  · intro r _
    exact List.pairwise_map.2 ((pairwise_zipIdx r.1.productions).imp fun rising => .inr ⟨rfl, rising⟩)
  · refine (pairwise_zipIdx g.rules.toList).imp ?_
    intro r s rising a inside b inside'
    obtain ⟨_, _, rfl⟩ := List.mem_map.1 inside
    obtain ⟨_, _, rfl⟩ := List.mem_map.1 inside'
    exact .inl rising

/-- The references stand in the order of their addresses. -/
theorem pairwise_allReferences (grammars : List Grammar) :
    (allReferences grammars).Pairwise fun a b => a.address.Before b.address := by
  unfold allReferences
  rw [List.pairwise_flatMap]
  constructor
  · intro e _
    unfold references
    rw [List.pairwise_filterMap]
    refine (pairwise_indexed e.1).imp ?_
    intro a b rising ref refers ref' refers'
    obtain ⟨_, _, rfl⟩ := Option.map_eq_some_iff.1 refers
    obtain ⟨_, _, rfl⟩ := Option.map_eq_some_iff.1 refers'
    exact .inr ⟨rfl, rising⟩
  · refine (pairwise_zipIdx grammars).imp ?_
    intro e e' rising ref inside ref' inside'
    have here := (mem_references_iff.1 inside).1
    have here' := (mem_references_iff.1 inside').1
    exact .inl (by rwa [here, here'])

theorem allReferences_append (grammars : List Grammar) (g : Grammar) :
    allReferences (grammars ++ [g]) = allReferences grammars ++ g.references grammars.length := by
  simp [allReferences, List.zipIdx_append]

end Grammar

end ExiSchema
