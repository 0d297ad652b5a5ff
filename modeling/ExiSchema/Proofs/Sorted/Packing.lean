import ExiSchema.Proofs.Sorted.Increasing
import ExiSchema.Text.Hash

/-!
Row numbers have 32 bits: no table takes a row beyond that. So the two rows of a name can be put
together into one number of 64 bits, and different names of a table get different ones.
-/

set_option autoImplicit false

namespace ExiSchema

namespace Text.Hash

theorem toNat_pack (low high : UInt32) : (pack low high).toNat = high.toNat * 2 ^ 32 + low.toNat := by
  have shifted : (high.toUInt64 <<< 32).toNat = high.toNat <<< 32 := by
    rw [UInt64.toNat_shiftLeft, UInt32.toNat_toUInt64]
    have lt := high.toNat_lt
    refine Nat.mod_eq_of_lt ?_
    rw [Nat.shiftLeft_eq]
    exact Nat.mul_lt_mul_of_pos_right lt (by decide)
  rw [pack, UInt64.toNat_or, shifted, UInt32.toNat_toUInt64, Nat.or_comm,
    ← Nat.shiftLeft_add_eq_or_of_lt low.toNat_lt, Nat.shiftLeft_eq]

theorem pack_injective {low high low' high' : UInt32} (same : pack low high = pack low' high') :
    low = low' ∧ high = high' := by
  have numbers := congrArg UInt64.toNat same
  rw [toNat_pack, toNat_pack] at numbers
  have lt := low.toNat_lt
  have lt' := low'.toNat_lt
  exact ⟨UInt32.toNat_inj.1 (by omega), UInt32.toNat_inj.1 (by omega)⟩

end Text.Hash

/-- The rows of a name in one number. -/
def NameRef.packed (ref : NameRef) : UInt64 := Text.Hash.pack ref.uri.toUInt32 ref.name.toUInt32

theorem NameRef.packed_injective {ref ref' : NameRef} (uri : ref.uri < Table.rowLimit)
    (name : ref.name < Table.rowLimit) (uri' : ref'.uri < Table.rowLimit)
    (name' : ref'.name < Table.rowLimit) (same : ref.packed = ref'.packed) : ref = ref' := by
  have back {n m : Nat} (lt : n < Table.rowLimit) (lt' : m < Table.rowLimit)
      (same : n.toUInt32 = m.toUInt32) : n = m := by
    rw [← UInt32.toNat_ofNat_of_lt' lt, ← UInt32.toNat_ofNat_of_lt' lt']
    exact congrArg UInt32.toNat same
  obtain ⟨low, high⟩ := Text.Hash.pack_injective same
  cases ref
  cases ref'
  cases back uri uri' low
  cases back name name' high
  rfl

namespace UriTable

variable {t u : UriTable}

/-- No table has more rows than there are row numbers. -/
structure Bounded (t : UriTable) : Prop where
  uris : t.size ≤ Table.rowLimit
  names : ∀ uri names, t.names? uri = some names → names.size ≤ Table.rowLimit

theorem bounded_initial : initial.Bounded := by
  have small : ∀ row ∈ initial.rows, ∀ names ∈ row.names, names.size ≤ Table.rowLimit := by
    decide +kernel
  refine ⟨by decide +kernel, fun uri names has => ?_⟩
  obtain ⟨row, here, has⟩ := Option.bind_eq_some_iff.1 has
  exact small row (Array.mem_of_getElem? here) names has

theorem Change.bounded (change : Change t u) (bounded : t.Bounded) : u.Bounded := by
  cases change with
  | uri _ room =>
    refine ⟨?_, fun i names has => bounded.names i names ?_⟩
    · rw [Table.size_append]
      exact room
    · rwa [names?_append] at has
  | @opened i lt =>
    refine ⟨by rw [UriTable.opened, Table.size_modifyRow]; exact bounded.uris, fun j names has => ?_⟩
    rcases names?_of_opened lt has with had | rfl
    · exact bounded.names j names had
    · exact Nat.zero_le _
  | @name i old label has absent room =>
    refine ⟨by rw [withName, Table.size_modifyRow]; exact bounded.uris, fun j names has' => ?_⟩
    rcases names?_of_withName has has' with had | rfl
    · exact bounded.names j names had
    · rw [Table.size_append]
      exact room

theorem Grows.bounded (grows : t.Grows u) (bounded : t.Bounded) : u.Bounded := by
  induction grows with
  | refl => exact bounded
  | tail _ change ih => exact change.bounded ih

/-- Sorting adds no rows. -/
theorem Bounded.sorted (bounded : t.Bounded) : t.sorted.uris.Bounded := by
  have kept {α : Type} [Row α] (rows : List α) (fixed : Nat) :
      (Table.ofRows ((ExiSchema.sortedRows rows fixed).map Prod.fst).toArray).size = rows.length := by
    rw [Table.size, Table.rows_ofRows, List.size_toArray, (map_fst_sortedRows_perm rows fixed).length_eq]
  constructor
  · rw [sorted_uris, kept, length_sortedRows]
    exact bounded.uris
  · intro uri names has
    obtain ⟨j, old, had, rfl, _⟩ := exists_of_names?_sorted has
    rw [sortedNames, kept, Array.length_toList]
    exact bounded.names j old had

/-- The rows of a name are row numbers. -/
theorem Bounded.ref_lt {ref : NameRef} {q : QName} (bounded : t.Bounded)
    (here : t.resolve? ref = some q) : ref.uri < Table.rowLimit ∧ ref.name < Table.rowLimit := by
  obtain ⟨uri, name, label, label', rfl⟩ := resolve?_eq_some_iff.1 here
  obtain ⟨row, there, rfl⟩ := Option.map_eq_some_iff.1 label
  obtain ⟨names, has, inner⟩ := Option.bind_eq_some_iff.1 label'
  obtain ⟨nameRow, local_, rfl⟩ := Option.map_eq_some_iff.1 inner
  exact ⟨(Table.lt_size_of_get? there).trans_le bounded.uris,
    (Table.lt_size_of_get? local_).trans_le (bounded.names _ names has)⟩

end UriTable

end ExiSchema
