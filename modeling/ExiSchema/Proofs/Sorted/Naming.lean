import ExiSchema.Proofs.Draft.Canonical
import ExiSchema.Proofs.Model.Renaming
import ExiSchema.Proofs.Sorted.Agreement

/-!
Canonical grammars do not tell which rows names had before sorting: what is built over the old rows
and then moved is what is built over the canonical rows at once.
-/

set_option autoImplicit false

namespace ExiSchema

open Grammar

section

variable {R S : Event → Event → Prop}

theorem Production.Alike.unique {p p₁ p₂ : Production} (first : Alike R p p₁) (second : Alike S p p₂)
    (one : ∀ e e₁ e₂, R e e₁ → S e e₂ → e₁ = e₂) : p₁ = p₂ := by
  cases p₁
  cases p₂
  exact Production.mk.injEq .. ▸
    ⟨one _ _ _ first.event second.event, first.target.trans second.target.symm⟩

theorem forall₂_unique {α : Type} {R S : α → α → Prop} {as bs cs : List α}
    (first : List.Forall₂ R as bs) (second : List.Forall₂ S as cs)
    (one : ∀ a b c, R a b → S a c → b = c) : bs = cs :=
  List.forall₂_eq_eq_eq ▸ forall₂_join first second one

theorem Rule.Alike.unique {r r₁ r₂ : Rule} (first : Alike R r r₁) (second : Alike S r r₂)
    (one : ∀ e e₁ e₂, R e e₁ → S e e₂ → e₁ = e₂) : r₁ = r₂ := by
  cases r₁
  cases r₂
  exact Rule.mk.injEq .. ▸ ⟨first.id.trans second.id.symm,
    forall₂_unique first.productions second.productions fun _ _ _ here here' =>
      here.unique here' one⟩

/-- Two grammars that are alike to one in ways that fix the events are equal. -/
theorem Grammar.Alike.unique {g g₁ g₂ : Grammar} (first : Alike R g g₁) (second : Alike S g g₂)
    (one : ∀ e e₁ e₂, R e e₁ → S e e₂ → e₁ = e₂) : g₁ = g₂ := by
  have rules : g₁.rules.toList = g₂.rules.toList :=
    forall₂_unique first second fun _ _ _ here here' => here.unique here' one
  cases g₁
  cases g₂
  exact congrArg Grammar.mk (Array.toList_inj.1 rules)

end

namespace UriTable

variable {t : UriTable}

/-- The rows of the table's names; names that it does not have get a row beyond it. -/
def exactNaming (t : UriTable) : Naming where
  uri text := (t.lookup text).getD t.size
  name q := (t.find? q).getD ⟨t.size, 0⟩

theorem fits_exactNaming (t : UriTable) : t.Fits t.exactNaming :=
  ⟨fun _ _ found => by simp only [exactNaming, found, Option.getD_some],
    fun _ _ found => by simp only [exactNaming, found, Option.getD_some]⟩

theorem labelAt?_size : t.labelAt? t.size = none := by
  rw [Table.labelAt?, Option.map_eq_none_iff, ← Option.not_isSome_iff_eq_none,
    Table.get?_isSome_iff]
  exact Nat.lt_irrefl _

theorem lookup_exactNaming {text : String} {label : Label}
    (here : t.labelAt? (t.exactNaming.uri text) = some label) :
    t.lookup text = some (t.exactNaming.uri text) := by
  cases found : t.lookup text with
  | some row => rw [t.fits_exactNaming.uri text row found]
  | none =>
    simp only [exactNaming, found, Option.getD_none, labelAt?_size] at here
    cases here

theorem find?_exactNaming {q q' : QName} (here : t.resolve? (t.exactNaming.name q) = some q') :
    t.find? q = some (t.exactNaming.name q) := by
  cases found : t.find? q with
  | some ref => rw [t.fits_exactNaming.name q ref found]
  | none =>
    obtain ⟨_, _, label, _⟩ := resolve?_eq_some_iff.1 here
    simp only [exactNaming, found, Option.getD_none, labelAt?_size] at label
    cases label

/-- A URI of the table goes to the row where the canonical table has it. -/
theorem sorted_uri (regular : t.Regular) {text : String} {row : Nat}
    (found : t.lookup text = some row) :
    ∃ new, t.sorted.mapping.uri row = .ok new ∧ t.sorted.uris.lookup text = some new := by
  obtain ⟨r, here, rfl⟩ := Table.text_of_lookup found
  have label : t.labelAt? row = some r.label := Option.map_eq_some_iff.2 ⟨r, here, rfl⟩
  obtain ⟨new, goes, there⟩ := labelAt?_sorted label
  obtain ⟨r', there, same⟩ := Option.map_eq_some_iff.1 there
  have found' := regular.unique.sorted.uris.lookup there
  rw [same] at found'
  exact ⟨new, goes, found'⟩

/-- The event is the only one that `e` can be moved to. -/
structure MovesTo (t : UriTable) (e e' : Event) : Prop where
  ends : e = .endElement ↔ e' = .endElement
  only : ∀ e'', Event.Renamed t e e'' → e'' = e'

theorem related_canonical (regular : t.Regular) :
    Naming.Related t.MovesTo t.exactNaming t.sorted.uris.naming := by
  have name {q q' : QName} {ref : NameRef} (here : t.resolve? (t.exactNaming.name q) = some q')
      (goes : t.sorted.mapping.ref (t.exactNaming.name q) = .ok ref) :
      ref = t.sorted.uris.naming.name q := by
    obtain ⟨new, goes', there⟩ := sorted_ref regular (find?_exactNaming here)
    cases goes.symm.trans goes'
    exact (t.sorted.uris.fits_naming.name q _ there).symm
  have uri {text : String} {row : Nat} {label : Label}
      (here : t.labelAt? (t.exactNaming.uri text) = some label)
      (goes : t.sorted.mapping.uri (t.exactNaming.uri text) = .ok row) :
      row = t.sorted.uris.naming.uri text := by
    obtain ⟨new, goes', there⟩ := sorted_uri regular (lookup_exactNaming here)
    cases goes.symm.trans goes'
    exact (t.sorted.uris.fits_naming.uri text _ there).symm
  constructor
  · refine ⟨fun e plain => ⟨Iff.rfl, fun e'' renamed => ?_⟩, fun _ _ moves => moves.ends⟩
    exact (Except.ok.inj ((Relocation.moved_of_plain _ plain).symm.trans renamed.moved)).symm
  · rintro q
    refine ⟨by simp, ?_⟩
    rintro e'' ⟨moved, n, named, _⟩
    obtain ⟨q', here, _⟩ := Option.map_eq_some_iff.1 named
    obtain ⟨ref, goes, rfl⟩ := except_map_eq_ok.1 moved
    rw [name here goes]
  · rintro text
    refine ⟨by simp, ?_⟩
    rintro e'' ⟨moved, n, named, _⟩
    obtain ⟨label, here, _⟩ := Option.map_eq_some_iff.1 named
    obtain ⟨row, goes, rfl⟩ := except_map_eq_ok.1 moved
    rw [uri here goes]
  · rintro q value
    refine ⟨by simp, ?_⟩
    rintro e'' ⟨moved, n, named, _⟩
    obtain ⟨q', here, _⟩ := Option.map_eq_some_iff.1 named
    obtain ⟨ref, goes, rfl⟩ := except_map_eq_ok.1 moved
    rw [name here goes]
  · rintro text
    refine ⟨by simp, ?_⟩
    rintro e'' ⟨moved, n, named, _⟩
    obtain ⟨label, here, _⟩ := Option.map_eq_some_iff.1 named
    obtain ⟨row, goes, rfl⟩ := except_map_eq_ok.1 moved
    rw [uri here goes]

/-- What fits the old tables becomes, when it is moved, what fits the canonical ones. -/
theorem built_canonical (regular : t.Regular) {built : Naming → Except Fault Grammar}
    (natural : Natural built) {g g' : Grammar} (fits : ∀ ν, t.Fits ν → built ν = .ok g)
    (renamed : Alike (Event.Renamed t) g g') : built t.sorted.uris.naming = .ok g' := by
  obtain ⟨g'', run, alike⟩ := (natural _ _ _ (related_canonical regular)).exists_ok
    (fits _ t.fits_exactNaming)
  rw [run, renamed.unique alike fun _ _ _ moved moves => moves.only _ moved]

end UriTable

end ExiSchema
