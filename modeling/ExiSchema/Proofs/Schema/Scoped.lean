import ExiSchema.Proofs.Model.Mentions

/-!
Models in which a type with a name is declared before the place where it is used.
-/

set_option autoImplicit false

namespace ExiSchema

/-- Those of the types that have a name have been declared. -/
def Within (declared ts : List TypeDef) : Prop :=
  ∀ t ∈ ts, ∀ name, t.name? = some name → t ∈ declared

theorem Within.mono {declared declared' ts : List TypeDef} (within : Within declared ts)
    (more : declared ⊆ declared') : Within declared' ts :=
  fun t mem name named => more (within t mem name named)

namespace Schema

/-- Declared types, the last one first. Each has a name and uses those declared before it. -/
def InOrder : List TypeDef → Prop
  | [] => True
  | t :: before => (∃ name, t.name? = some name) ∧ Within before (typesOf t.elements) ∧ InOrder before

theorem InOrder.within {declared : List TypeDef} (order : InOrder declared) :
    ∀ t ∈ declared, Within declared (typesOf t.elements) := by
  induction declared with
  | nil => exact List.forall_mem_nil _
  | cons t before ih =>
    obtain ⟨_, uses, order⟩ := order
    refine List.forall_mem_cons.2 ⟨uses.mono (List.subset_cons_self t before), fun t' mem => ?_⟩
    exact (ih order t' mem).mono (List.subset_cons_self t before)

/-- What was declared first is in order by itself. -/
theorem InOrder.of_append {later declared : List TypeDef} (order : InOrder (later ++ declared)) :
    InOrder declared := by
  induction later with
  | nil => exact order
  | cons t later ih => exact ih order.2.2

theorem inOrder_reverse {declared : List TypeDef}
    (each : ∀ i t, declared[i]? = some t →
      (∃ name, t.name? = some name) ∧ Within (declared.take i) (typesOf t.elements)) :
    InOrder declared.reverse := by
  induction declared using List.reverseRecOn with
  | nil => trivial
  | append_singleton before t ih =>
    obtain ⟨named, within⟩ := each before.length t List.getElem?_concat_length
    rw [List.take_left] at within
    rw [List.reverse_append, List.reverse_singleton, List.singleton_append]
    refine ⟨named, within.mono fun _ mem => List.mem_reverse.2 mem, ih fun i t' here => ?_⟩
    obtain ⟨lt, _⟩ := List.getElem?_eq_some_iff.1 here
    have earlier := each i t' ((List.getElem?_append_left lt).trans here)
    rwa [List.take_append_of_le_length lt.le] at earlier

/-- Every type with a name is declared, and before the place where it is used. -/
structure Scoped (s : Schema) : Prop where
  types : InOrder s.types.reverse
  elements : ∀ e ∈ s.elements, Within s.types (typesOf (e :: e.inner))

end Schema

end ExiSchema
