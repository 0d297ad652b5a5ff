import ExiSchema.Grammar.Named
import ExiSchema.Proofs.Sorted.Naming

/-!
Grammars over names. Grammars that are alike have the same rules over names if their events have the
same names; so what a model builds is the same over names, whatever tables it is built over.
-/

set_option autoImplicit false

namespace ExiSchema

/-- The production over names, where `N` says which names an event may have. -/
structure Production.NamedBy (N : Event → NamedEvent → Prop) (p : Production) (n : NamedProduction) :
    Prop where
  event : N p.event n.event
  target : p.target = n.target

structure Rule.NamedBy (N : Event → NamedEvent → Prop) (r : Rule) (n : NamedRule) : Prop where
  id : r.id = n.id
  productions : List.Forall₂ (Production.NamedBy N) r.productions n.productions

namespace Grammar

def NamedBy (N : Event → NamedEvent → Prop) (g : Grammar) (rules : List NamedRule) : Prop :=
  List.Forall₂ (Rule.NamedBy N) g.rules.toList rules

variable {t t' : UriTable} {g g' : Grammar} {rules rules' : List NamedRule}
  {R : Event → Event → Prop} {N N' : Event → NamedEvent → Prop}

theorem Alike.namedBy (alike : Alike R g g') (named : g.NamedBy N rules)
    (kept : ∀ e e' n, R e e' → N e n → N' e' n) : g'.NamedBy N' rules := by
  refine forall₂_join alike named fun r r' n same here => ⟨same.id.trans here.id, ?_⟩
  exact forall₂_join same.productions here.productions fun p p' n like here =>
    ⟨kept _ _ _ like.event here.event, like.target.trans here.target⟩

theorem NamedBy.unique (here : g.NamedBy N rules) (there : g.NamedBy N' rules')
    (one : ∀ e n n', N e n → N' e n' → n = n') : rules = rules' := by
  refine List.forall₂_eq_eq_eq ▸ forall₂_join here there ?_
  rintro r ⟨id, productions⟩ ⟨id', productions'⟩ first second
  have inner : productions = productions' := by
    refine List.forall₂_eq_eq_eq ▸ forall₂_join first.productions second.productions ?_
    rintro p ⟨event, target⟩ ⟨event', target'⟩ first second
    cases one _ _ _ first.event second.event
    cases first.target.symm.trans second.target
    rfl
  cases first.id.symm.trans second.id
  cases inner
  rfl

theorem named?_eq_some_iff :
    g.named? t = some rules ↔ g.NamedBy (fun e n => e.named? t = some n) rules := by
  have production (p : Production) (n : NamedProduction) :
      (∃ event, p.event.named? t = some event ∧ NamedProduction.mk event p.target = n) ↔
        p.NamedBy (fun e n => e.named? t = some n) n := by
    constructor
    · rintro ⟨_, here, rfl⟩
      exact ⟨here, rfl⟩
    · rintro ⟨here, target⟩
      exact ⟨_, here, by rw [target]⟩
  have rule (r : Rule) (n : NamedRule) :
      (do return ⟨r.id, ← r.productions.mapM fun p => do return ⟨← p.event.named? t, p.target⟩⟩ :
        Option NamedRule) = some n ↔ r.NamedBy (fun e n => e.named? t = some n) n := by
    obtain ⟨id, productions⟩ := n
    simp only [bind, Option.bind_eq_some_iff, pure, Option.some.injEq, NamedRule.mk.injEq,
      mapM_eq_some_iff]
    constructor
    · rintro ⟨_, here, rfl, rfl⟩
      exact ⟨rfl, here.imp fun p n => (production p n).1⟩
    · rintro ⟨rfl, here⟩
      exact ⟨_, here.imp fun p n => (production p n).2, rfl, rfl⟩
  rw [named?, mapM_eq_some_iff]
  exact ⟨fun all => all.imp fun r n => (rule r n).1, fun all => all.imp fun r n => (rule r n).2⟩

theorem Every.exists_named? (every : g.Every fun e => (e.named? t).isSome) :
    ∃ rules, g.named? t = some rules := by
  simp only [named?_eq_some_iff]
  refine exists_forall₂ fun r rule => ?_
  have production : ∀ p ∈ r.productions,
      ∃ n, p.NamedBy (fun e n => e.named? t = some n) n := fun p mem => by
    obtain ⟨event, here⟩ := Option.isSome_iff_exists.1 (every r (Array.mem_toList_iff.1 rule) p mem)
    exact ⟨⟨event, p.target⟩, here, rfl⟩
  obtain ⟨productions, all⟩ := exists_forall₂ production
  exact ⟨⟨r.id, productions⟩, rfl, all⟩

/-- Moving a grammar to canonical rows does not change its rules over names. -/
theorem Alike.named? (alike : Alike (Event.Renamed t) g g') (here : g.named? t = some rules) :
    g'.named? t.sorted.uris = some rules := by
  rw [named?_eq_some_iff] at here ⊢
  refine alike.namedBy here fun e e' n renamed named => ?_
  obtain ⟨n', before, after⟩ := renamed.named
  cases named.symm.trans before
  exact after

/-- Over names, grammars that are alike are the same if no two of their events differ in names. -/
theorem Alike.named?_unique (alike : Alike R g g')
    (one : ∀ e e' n n', R e e' → e.named? t = some n → e'.named? t' = some n' → n = n')
    (here : g.named? t = some rules) (there : g'.named? t' = some rules') : rules = rules' := by
  rw [named?_eq_some_iff] at here there
  have among : g'.NamedBy (fun e n => ∀ n', e.named? t' = some n' → n = n') rules :=
    alike.namedBy here fun e e' n related named n' => one e e' n n' related named
  exact among.unique there fun _ _ _ all named => all _ named

end Grammar

namespace UriTable

variable {t t' : UriTable}

theorem map_resolve?_exactNaming {α : Type} {f : QName → α} {q : QName} {a : α}
    (here : (t.resolve? (t.exactNaming.name q)).map f = some a) : a = f q := by
  obtain ⟨q', named, rfl⟩ := Option.map_eq_some_iff.1 here
  cases named.symm.trans (resolve?_of_find? (find?_exactNaming named))
  rfl

theorem map_labelAt?_exactNaming {α : Type} {f : String → α} {text : String} {a : α}
    (here : (t.labelAt? (t.exactNaming.uri text)).map (fun label => f label.text) = some a) :
    a = f text := by
  obtain ⟨label, named, rfl⟩ := Option.map_eq_some_iff.1 here
  obtain ⟨r, there, same⟩ := Table.text_of_lookup (lookup_exactNaming named)
  rw [Table.labelAt?, there] at named
  cases named
  exact congrArg f same

/-- The events do not differ in what they name. -/
structure SameNamed (t t' : UriTable) (e e' : Event) : Prop where
  ends : e = .endElement ↔ e' = .endElement
  one : ∀ n n', e.named? t = some n → e'.named? t' = some n' → n = n'

theorem sameNamed_of_plain {e : Event} (plain : e.uri? = none) : SameNamed t t' e e := by
  have same : e.named? t = e.named? t' := by
    match e, plain with
    | .endElement, _ | .characters _, _ | .charactersUntyped, _ | .startElementAny, _
    | .attributeAny, _ | .epsilon, _ => rfl
  exact ⟨Iff.rfl, fun n n' here there => Option.some.inj (here.symm.trans (same.trans there))⟩

theorem related_exactNaming (t t' : UriTable) :
    Naming.Related (SameNamed t t') t.exactNaming t'.exactNaming where
  respected := ⟨fun _ => sameNamed_of_plain, fun _ _ same => same.ends⟩
  element _ := ⟨by simp, fun _ _ here there =>
    (map_resolve?_exactNaming here).trans (map_resolve?_exactNaming there).symm⟩
  elementNs _ := ⟨by simp, fun _ _ here there =>
    (map_labelAt?_exactNaming here).trans (map_labelAt?_exactNaming there).symm⟩
  use _ value := ⟨by simp, fun _ _ here there =>
    (map_resolve?_exactNaming (f := (NamedEvent.attribute · value)) here).trans
      (map_resolve?_exactNaming there).symm⟩
  useNs _ := ⟨by simp, fun _ _ here there =>
    (map_labelAt?_exactNaming here).trans (map_labelAt?_exactNaming there).symm⟩

/-- What is built over two tables has the same rules over names. -/
theorem named?_built {built : Naming → Except Fault Grammar} {g g' : Grammar}
    {rules rules' : List NamedRule} (natural : Natural built)
    (fits : ∀ ν, t.Fits ν → built ν = .ok g) (fits' : ∀ ν, t'.Fits ν → built ν = .ok g')
    (here : g.named? t = some rules) (there : g'.named? t' = some rules') : rules = rules' := by
  obtain ⟨_, run, alike⟩ := (natural _ _ _ (related_exactNaming t t')).exists_ok
    (fits _ t.fits_exactNaming)
  cases run.symm.trans (fits' _ t'.fits_exactNaming)
  exact alike.named?_unique (fun _ _ _ _ same => same.one _ _) here there

end UriTable

end ExiSchema
