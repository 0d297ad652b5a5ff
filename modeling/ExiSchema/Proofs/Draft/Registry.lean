import ExiSchema.Proofs.Draft.Walking
import ExiSchema.Schema.Faults

/-!
What a draft registers under names. In a draft that is in order, the numbers that are registered are
those of grammars and the rows are those of names, and what was put off is part of the model.
-/

set_option autoImplicit false

namespace ExiSchema

/-- What is there already keeps its place. -/
theorem eraseDups_concat {α : Type} [BEq α] [LawfulBEq α] (xs : List α) (x : α) :
    (xs ++ [x]).eraseDups = if x ∈ xs then xs.eraseDups else xs.eraseDups ++ [x] := by
  rw [List.eraseDups_append]
  split <;> simp [List.removeAll, List.eraseDups_cons, *]

namespace TypeRegistry

variable {r : TypeRegistry} {name other : QName} {grammars : GrammarPair}

def names (r : TypeRegistry) : List QName := r.entries.map Prod.fst

theorem find?_eq_none_iff : r.find? name = none ↔ name ∉ r.names := by
  simp only [find?, names, Option.map_eq_none_iff, List.find?_eq_none, List.mem_map, beq_iff_eq]
  exact ⟨fun h ⟨e, mem, same⟩ => h e mem same, fun h e mem same => h ⟨e, mem, same⟩⟩

theorem insert_of_absent (absent : r.find? name = none) :
    r.insert name grammars = ⟨r.entries ++ [(name, grammars)]⟩ := by
  rw [find?, Option.map_eq_none_iff, List.find?_eq_none] at absent
  rw [insert, if_neg]
  rw [List.any_eq_true, not_exists]
  exact fun e ⟨mem, same⟩ => absent e mem same

theorem names_insert (absent : r.find? name = none) :
    (r.insert name grammars).names = r.names ++ [name] := by
  rw [insert_of_absent absent, names, names, List.map_append]
  rfl

theorem find?_replaced_self {entries : List (QName × GrammarPair)}
    (present : name ∈ entries.map Prod.fst) :
    find? ⟨entries.map fun e => if e.1 == name then (name, grammars) else e⟩ name =
      some grammars := by
  induction entries with
  | nil => cases present
  | cons e entries ih =>
    by_cases here : e.1 = name
    · simp [find?, here]
    · have later := ih ((List.mem_cons.1 present).resolve_left (Ne.symm here))
      simpa [find?, here] using later

theorem find?_replaced_of_ne {entries : List (QName × GrammarPair)} (ne : other ≠ name) :
    find? ⟨entries.map fun e => if e.1 == name then (name, grammars) else e⟩ other =
      find? ⟨entries⟩ other := by
  have ne' : name ≠ other := Ne.symm ne
  induction entries with
  | nil => rfl
  | cons e entries ih =>
    by_cases here : e.1 = name
    · simpa [find?, here, ne'] using ih
    · by_cases there : e.1 = other
      · simp [find?, there, ne]
      · simpa [find?, here, there] using ih

theorem find?_insert :
    (r.insert name grammars).find? other =
      if other = name then some grammars else r.find? other := by
  by_cases absent : r.find? name = none
  · rw [insert_of_absent absent, find?, List.find?_append]
    split
    · next same =>
      subst same
      rw [Option.map_eq_none_iff.1 absent]
      simp
    · next ne =>
      have no : (name == other) = false := beq_eq_false_iff_ne.2 (Ne.symm ne)
      simp [find?, no]
  · have present : name ∈ r.names := not_not.1 fun not => absent (find?_eq_none_iff.2 not)
    have found : (r.entries.any fun e => e.1 == name) = true := by
      obtain ⟨e, mem, rfl⟩ := List.mem_map.1 present
      exact List.any_eq_true.2 ⟨e, mem, beq_self_eq_true e.1⟩
    rw [insert, if_pos found]
    split
    · next same =>
      subst same
      exact find?_replaced_self present
    · next ne => exact find?_replaced_of_ne ne

end TypeRegistry

namespace Draft

variable {d d' : Draft} {id : GrammarId} {ref : NameRef} {F : List Fault}

theorem Holds.lt {g : Grammar} (here : d.Holds id g) : id < d.grammars.size :=
  (Array.getElem?_eq_some_iff.1 here).1

theorem size_le_of_grows (grows : d.store.Grows d'.store) : d.grammars.size ≤ d'.grammars.size := by
  by_contra more
  obtain ⟨g, here⟩ : ∃ g, d.grammars[d'.grammars.size]? = some g :=
    ⟨_, Array.getElem?_eq_getElem (Nat.not_le.1 more)⟩
  exact absurd (Array.getElem?_eq_some_iff.1 (grows.grammars here)).1 (Nat.lt_irrefl _)

/-- The number is that of some grammar. -/
def Knows (d : Draft) (id : GrammarId) : Prop := ∃ g, d.Holds id g

theorem Knows.grow (knows : d.Knows id) (grows : d.store.Grows d'.store) : d'.Knows id := by
  obtain ⟨g, here⟩ := knows
  exact ⟨g, grows.grammars here⟩

def KnowsPair (d : Draft) (pair : GrammarPair) : Prop := d.Knows pair.grammar ∧ d.Knows pair.empty

theorem KnowsPair.grow {pair : GrammarPair} (knows : d.KnowsPair pair)
    (grows : d.store.Grows d'.store) : d'.KnowsPair pair :=
  ⟨knows.1.grow grows, knows.2.grow grows⟩

/-- The rows are those of some name. -/
def Names (d : Draft) (ref : NameRef) : Prop := ∃ q, d.uris.resolve? ref = some q

theorem names_of_find? {q : QName} (found : d.uris.find? q = some ref) : d.Names ref :=
  ⟨q, UriTable.resolve?_of_find? found⟩

theorem Names.grow (names : d.Names ref) (grows : d.store.Grows d'.store) : d'.Names ref := by
  obtain ⟨q, here⟩ := names
  exact ⟨q, grows.uris.extends.resolve? here⟩

/-- What is registered can be used, and what was put off has no faults but the given ones. -/
structure Orderly (F : List Fault) (d : Draft) : Prop where
  types : ∀ name pair, d.types.find? name = some pair → d.KnowsPair pair
  anyType : ∀ id, d.anyType = some id → d.Knows id
  globals : ∀ e ∈ d.globals, d.Names e.name
  locals : ∀ e ∈ d.locals, d.Names e.name
  pending : ∀ e ∈ d.pending, d.Names e.name ∧ e.type.faults ⊆ F

theorem orderly_start (options : Options) : (start options).Orderly F := by
  refine ⟨fun name pair found => ?_, fun id here => ?_, ?_, ?_, ?_⟩
  · cases found
  · cases here
  all_goals simp [start]

namespace Orderly

variable (orderly : d.Orderly F)
include orderly

theorem grow {s : Store} (grows : d.store.Grows s) : (d.withStore s).Orderly F := by
  have grows : d.store.Grows (d.withStore s).store := grows
  exact ⟨fun name pair found => (orderly.types name pair found).grow grows,
    fun id here => (orderly.anyType id here).grow grows,
    fun e mem => (orderly.globals e mem).grow grows,
    fun e mem => (orderly.locals e mem).grow grows,
    fun e mem => ⟨(orderly.pending e mem).1.grow grows, (orderly.pending e mem).2⟩⟩

theorem adds (adds : d.Adds d') : d'.Orderly F := by
  rw [adds.frame]
  exact orderly.grow adds.grows

/-- What waits to be built, what is being compiled and what was left out do not matter. -/
theorem beside (stack : List GrammarId) (active : List QName) (skips : Array Skip) :
    Orderly F { d with stack, active, skips } :=
  ⟨orderly.types, orderly.anyType, orderly.globals, orderly.locals, orderly.pending⟩

theorem declareType {name : QName} {pair : GrammarPair} (knows : d.KnowsPair pair) :
    Orderly F { d with types := d.types.insert name pair } := by
  refine ⟨fun other pair' found => ?_, orderly.anyType, orderly.globals, orderly.locals,
    orderly.pending⟩
  rw [TypeRegistry.find?_insert] at found
  split at found
  · cases found
    exact knows
  · exact orderly.types other pair' found

theorem declareAny (knows : d.Knows id) : Orderly F { d with anyType := some id } := by
  refine ⟨orderly.types, fun id' here => ?_, orderly.globals, orderly.locals, orderly.pending⟩
  cases here
  exact knows

theorem declareGlobal (names : d.Names ref) :
    Orderly F { d with globals := d.globals.push ⟨ref, id⟩ } := by
  refine ⟨orderly.types, orderly.anyType, fun e mem => ?_, orderly.locals, orderly.pending⟩
  rcases Array.mem_push.1 mem with old | rfl
  · exact orderly.globals e old
  · exact names

theorem declareLocal {type : GrammarId} (names : d.Names ref) :
    Orderly F { d with locals := d.locals.push ⟨ref, type, id⟩ } := by
  refine ⟨orderly.types, orderly.anyType, orderly.globals, fun e mem => ?_, orderly.pending⟩
  rcases Array.mem_push.1 mem with old | rfl
  · exact orderly.locals e old
  · exact names

theorem putOff {type : TypeDef} (names : d.Names ref) (among : type.faults ⊆ F) :
    Orderly F { d with pending := d.pending ++ [⟨ref, type⟩] } := by
  refine ⟨orderly.types, orderly.anyType, orderly.globals, orderly.locals, fun e mem => ?_⟩
  rcases List.mem_append.1 mem with old | new
  · exact orderly.pending e old
  · obtain rfl := List.mem_singleton.1 new
    exact ⟨names, among⟩

end Orderly

end Draft

end ExiSchema
