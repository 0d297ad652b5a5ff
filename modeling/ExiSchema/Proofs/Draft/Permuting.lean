import ExiSchema.Proofs.Draft.Locals
import ExiSchema.Proofs.Draft.Lockstep
import ExiSchema.Proofs.Draft.Settling
import ExiSchema.Proofs.Schema.Matching
import Mathlib.Data.List.Nodup

/-!
Attribute uses in another order. Where they are taken by name, and no type has two uses of one name,
there is one order in which they can be taken; so it does not matter how they are declared.
-/

set_option autoImplicit false

namespace ExiSchema

namespace QName

instance : Std.TransCmp compareLocal :=
  inferInstanceAs (Std.TransCmp (compareLex (compareOn localName) (compareOn uri)))

theorem compareLocal_total (a b : QName) :
    ((compareLocal a b).isLE || (compareLocal b a).isLE) = true := by
  have swap : compareLocal b a = (compareLocal a b).swap := Std.OrientedCmp.eq_swap
  rw [swap]
  cases compareLocal a b <;> rfl

theorem compareLocal_antisymm {a b : QName} (first : (compareLocal a b).isLE = true)
    (second : (compareLocal b a).isLE = true) : a = b :=
  compareLocal_eq_iff.1 (Std.OrientedCmp.isLE_antisymm first second)

end QName

namespace AttributeUse

/-- Whether one use is taken no later than the other. -/
def before (a b : AttributeUse) : Bool := (QName.compareLocal a.name b.name).isLE

theorem before_trans (a b c : AttributeUse) (first : a.before b = true) (second : b.before c = true) :
    a.before c = true := by
  unfold before at *
  exact Std.TransCmp.isLE_trans first second

theorem before_total (a b : AttributeUse) : (a.before b || b.before a) = true := by
  unfold before
  exact QName.compareLocal_total a.name b.name

end AttributeUse

namespace Draft

theorem pairwise_before (us : List AttributeUse) :
    (us.mergeSort AttributeUse.before).Pairwise fun a b => a.before b = true :=
  List.pairwise_mergeSort AttributeUse.before_trans AttributeUse.before_total us

/-- Uses with distinct names have one order by name. -/
theorem mergeSort_eq_of_perm {us us' : List AttributeUse} (perm : us.Perm us')
    (distinct : (us.map AttributeUse.name).Nodup) :
    us'.mergeSort AttributeUse.before = us.mergeSort AttributeUse.before := by
  refine List.Perm.eq_of_pairwise ?_ (pairwise_before us') (pairwise_before us) ?_
  · intro a b mem mem' first second
    have named : a.name = b.name := QName.compareLocal_antisymm first second
    exact List.inj_on_of_nodup_map distinct (perm.mem_iff.2 (List.mem_mergeSort.1 mem))
      (List.mem_mergeSort.1 mem') named
  · exact (List.mergeSort_perm _ _).trans (perm.symm.trans (List.mergeSort_perm _ _).symm)

theorem orderedUses_eq_of_perm {o : Options} {us us' : List AttributeUse}
    (sorts : o.sortAttributes = true) (perm : us.Perm us')
    (distinct : (us.map AttributeUse.name).Nodup) : orderedUses o us' = orderedUses o us := by
  unfold orderedUses
  rw [if_pos sorts, if_pos sorts]
  exact mergeSort_eq_of_perm perm distinct

end Draft

/-- Compilations of models whose uses come in the same order when they are taken by name. -/
def sortingTwins : Twins where
  options o o' := o' = o ∧ o.sortAttributes = true
  uses us us' := us.Perm us' ∧ (us.map AttributeUse.name).Nodup
  stops _ := False
  ordered := by
    rintro o _ us us' ⟨rfl, sorts⟩ ⟨perm, distinct⟩
    exact Draft.orderedUses_eq_of_perm sorts perm distinct
  skips := by
    rintro o _ ⟨rfl, _⟩
    exact .inl rfl

/-- Compilations of models whose uses are in the order of their names already. -/
def sortedTwins : Twins where
  options o o' := o.sortAttributes = false ∧ o' = { o with sortAttributes := true }
  uses us us' := us = us' ∧ us.Pairwise fun a b => a.before b = true
  stops _ := False
  ordered := by
    rintro o _ us _ ⟨off, rfl⟩ ⟨rfl, sorted⟩
    rw [Draft.orderedUses, Draft.orderedUses, off, if_pos rfl, if_neg Bool.false_ne_true]
    exact List.mergeSort_of_pairwise sorted
  skips := by
    rintro o _ ⟨_, rfl⟩
    exact .inl rfl

namespace Schema

/-- Where attribute uses are taken by name and those of each type have distinct names, models that
differ in the order of these uses compile to the same result, be it a schema or a fault. -/
theorem compile_rearranged {s s' : Schema} {o : Options} (sorts : o.sortAttributes = true)
    (distinct : ∀ t ∈ s.allTypes, (t.attributes.map AttributeUse.name).Nodup)
    (rearranges : s.Rearranges s') : s'.compile o = s.compile o := by
  have options : sortingTwins.options o o := ⟨rfl, sorts⟩
  have matching : s.Matches sortingTwins.uses s' :=
    rearranges.and_take (P := fun us => (us.map AttributeUse.name).Nodup) distinct
  exact Twins.compile_eq (fun _ => id) options matching

/-- A model whose uses are in the order of their names compiles as if they were not sorted. -/
theorem compile_sorted {s : Schema} {o : Options}
    (sorted : ∀ t ∈ s.allTypes, t.attributes.Pairwise fun a b => a.before b = true) :
    s.compile { o with sortAttributes := true } = s.compile { o with sortAttributes := false } := by
  have options : sortedTwins.options { o with sortAttributes := false }
      { o with sortAttributes := true } := ⟨rfl, rfl⟩
  have matching : s.Matches sortedTwins.uses s := s.matches_refl.and_take sorted
  exact Twins.compile_eq (fun _ => id) options matching

/-- A type with attributes, around an element with a type of its own that has attributes too. -/
def attributed (outer inner : List AttributeUse) : Schema where
  types := [.complex (some ⟨"", "t"⟩) outer none (.elementOnly (.once (.element
    ⟨⟨"", "b"⟩, [], some (.complex none inner none .empty)⟩)))]
  elements := []

def useA : AttributeUse := ⟨⟨"u", "a"⟩, true, "string"⟩

def useB : AttributeUse := ⟨⟨"", "b"⟩, false, "int"⟩

theorem forall_allTypes_attributed {P : List AttributeUse → Prop} {outer inner : List AttributeUse}
    (first : P outer) (second : P inner) : ∀ t ∈ (attributed outer inner).allTypes, P t.attributes :=
  List.forall_mem_cons.2 ⟨first, List.forall_mem_singleton.2 second⟩

theorem compile_rearranged_attributed :
    ∃ r, (attributed [useA, useB] [useA, useB]).compile { sortAttributes := true } = .ok r ∧
      (attributed [useB, useA] [useB, useA]).compile { sortAttributes := true } = .ok r := by
  obtain ⟨r, run⟩ := exists_compile_of_isOk (s := attributed [useA, useB] [useA, useB]) (o := {})
    (by decide +kernel)
  have inOrder : [useA, useB].Pairwise fun a b => a.before b = true := by decide +kernel
  have run : (attributed [useA, useB] [useA, useB]).compile { sortAttributes := true } = .ok r :=
    (compile_sorted (o := {}) (forall_allTypes_attributed inOrder inOrder)).trans run
  have swapped : [useA, useB].Perm [useB, useA] := .swap _ _ _
  have distinct : ([useA, useB].map AttributeUse.name).Nodup := by decide
  refine ⟨r, run, (compile_rearranged rfl ?_ ⟨.cons (.complex _ none swapped ?_) .nil, .nil⟩).trans run⟩
  · exact forall_allTypes_attributed (P := fun us => (us.map AttributeUse.name).Nodup) distinct distinct
  · exact .elementOnly (.bounds 1 (.bounded 1) (.element
      (.typed _ _ (.complex none none swapped .empty))))

end Schema

end ExiSchema
