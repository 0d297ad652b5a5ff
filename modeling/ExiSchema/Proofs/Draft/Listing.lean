import ExiSchema.Proofs.Draft.Locals
import ExiSchema.Proofs.Schema.Reading

/-!
The order in which the named types of a compiled model are listed. A type is registered when it is done
with, so a declared type that another one uses before its own declaration comes before that one. Models
in which types refer back only, as all models do that are read, list their types as declared.
-/

set_option autoImplicit false

namespace ExiSchema

namespace Tour

/-- New names are done with: they are names of the given types, and none of them is active. -/
def Gains (active : List QName) (types : List TypeDef) (t t' : Tour) : Prop :=
  ∃ more, t'.done = t.done ++ more ∧ more.Nodup ∧
    ∀ name ∈ more, name ∉ t.done ∧ name ∉ active ∧ ∃ type ∈ types, type.name? = some name

namespace Gains

variable {active : List QName} {types types' : List TypeDef} {t t' t'' : Tour}

theorem refl (t : Tour) : Gains active types t t :=
  ⟨[], (List.append_nil _).symm, List.nodup_nil, List.forall_mem_nil _⟩

theorem mono (gains : Gains active types t t') (more : types ⊆ types') : Gains active types' t t' := by
  obtain ⟨names, done, nodup, new⟩ := gains
  refine ⟨names, done, nodup, fun name mem => ?_⟩
  obtain ⟨fresh, idle, type, here, named⟩ := new name mem
  exact ⟨fresh, idle, type, more here, named⟩

theorem trans (first : Gains active types t t') (second : Gains active types' t' t'') :
    Gains active (types ++ types') t t'' := by
  obtain ⟨names, done, nodup, new⟩ := first
  obtain ⟨names', done', nodup', new'⟩ := second
  have fresh (name : QName) (mem : name ∈ names') : name ∉ t.done ∧ name ∉ names :=
    not_or.1 (mt List.mem_append.2 (done ▸ (new' name mem).1))
  refine ⟨names ++ names', by rw [done', done, List.append_assoc], ?_, fun name mem => ?_⟩
  · exact nodup.append nodup' fun name mem mem' => (fresh name mem').2 mem
  · rcases List.mem_append.1 mem with old | later
    · obtain ⟨out, idle, type, here, named⟩ := new name old
      exact ⟨out, idle, type, List.mem_append_left _ here, named⟩
    · obtain ⟨_, idle, type, here, named⟩ := new' name later
      exact ⟨(fresh name later).1, idle, type, List.mem_append_right _ here, named⟩

theorem foldl {α : Type} {f : α → Tour → Tour} {inner : α → List TypeDef}
    (each : ∀ a t, Gains active (inner a) t (f a t)) (xs : List α) :
    ∀ t, Gains active (xs.flatMap inner) t (xs.foldl (fun t a => f a t) t) := by
  induction xs with
  | nil => exact fun t => .refl t
  | cons x xs ih => exact fun t => (each x t).trans (ih _)

/-- A type comes after the types inside it. -/
theorem once {type : TypeDef} {inside : List QName → Tour → Tour}
    (each : ∀ active, Gains active types t (inside active t))
    (idle : ∀ name ∈ active, type.name? ≠ some name) :
    Gains active (type :: types) t (t.once type.name? inside active) := by
  cases named : type.name? with
  | none => exact (each active).mono (List.subset_cons_self type types)
  | some name =>
    by_cases met : name ∈ t.done
    · rw [once_of_mem met]
      exact .refl t
    obtain ⟨names, done, nodup, new⟩ := each (name :: active)
    have apart : name ∉ names := fun mem => (new name mem).2.1 List.mem_cons_self
    rw [once_of_new met]
    refine ⟨names ++ [name], by rw [done, List.append_assoc], ?_, fun other mem => ?_⟩
    · exact nodup.append (List.nodup_singleton name) (List.disjoint_singleton.2 apart)
    rcases List.mem_append.1 mem with inner | same
    · obtain ⟨fresh, out, type', here, named'⟩ := new other inner
      exact ⟨fresh, fun mem => out (List.mem_cons_of_mem _ mem), type', List.mem_cons_of_mem _ here,
        named'⟩
    · obtain rfl := List.mem_singleton.1 same
      exact ⟨met, fun mem => idle other mem named, type, List.mem_cons_self, named⟩

end Gains

end Tour

-- By recursion on the model, as the tour.
mutual

theorem TypeDef.tour_gains : ∀ (type : TypeDef) (active : List QName) (t : Tour),
    (∀ name ∈ active, type.name? ≠ some name) → t.Gains active type.types (type.tour active t)
  | .simple _ _ _, _, t, idle => by
    rw [TypeDef.tour]
    exact .once (fun _ => .refl t) idle
  | .complex _ _ _ content, _, t, idle => by
    rw [TypeDef.tour]
    exact .once (fun active => content.tour_gains active t) idle
termination_by structural type => type

theorem Content.tour_gains : ∀ (c : Content) (active : List QName) (t : Tour),
    t.Gains active (typesOf c.elements) (c.tour active t)
  | .empty, _, t | .simple _, _, t => .refl t
  | .elementOnly particle, active, t | .mixed particle, active, t => particle.tour_gains active t
termination_by structural c => c

theorem Particle.tour_gains : ∀ (p : Particle) (active : List QName) (t : Tour),
    t.Gains active (typesOf p.elements) (p.tour active t)
  | ⟨_, _, term⟩, active, t => term.tour_gains active t
termination_by structural p => p

theorem Term.tour_gains : ∀ (term : Term) (active : List QName) (t : Tour),
    t.Gains active (typesOf term.elements) (term.tour active t)
  | .element decl, active, t => decl.tour_gains active t
  | .wildcard _, _, t => .refl t
  | .group _ particles, active, t => tourOfAll_gains particles active t
termination_by structural term => term

theorem tourOfAll_gains : ∀ (ps : List Particle) (active : List QName) (t : Tour),
    t.Gains active (typesOf (elementsOfAll ps)) (tourOfAll ps active t)
  | [], _, t => .refl t
  | p :: ps, active, t => by
    rw [tourOfAll, elementsOfAll, typesOf_append]
    exact (p.tour_gains active t).trans (tourOfAll_gains ps active _)
termination_by structural ps => ps

theorem ElementDecl.tour_gains : ∀ (e : ElementDecl) (active : List QName) (t : Tour),
    t.Gains active (typesOf (e :: e.inner)) (e.tour active t)
  | ⟨_, _, none⟩, _, t => .refl t
  | ⟨_, _, some type⟩, active, t => by
    rw [ElementDecl.tour]
    split
    · exact .refl t
    · next idle => exact type.tour_gains active t fun name mem named => idle ⟨name, mem, named⟩
termination_by structural e => e

end

/-- The tour of declared types, without any elements. -/
def typesTour (ts : List TypeDef) : Tour := Schema.tour ⟨ts, []⟩

/-- The names of declared types, as often as they are declared. -/
def declaredNames (ts : List TypeDef) : List QName := ts.filterMap TypeDef.name?

section

variable {ts before : List TypeDef} {t : TypeDef} {name : QName}

theorem typesTour_concat : typesTour (before ++ [t]) = t.tour [] (typesTour before) := by
  simp only [typesTour, Schema.tour, List.foldl_append, List.foldl_cons, List.foldl_nil]

theorem typesTour_gains (before after : List TypeDef) : (typesTour before).Gains []
    (after.flatMap TypeDef.types) (typesTour (before ++ after)) := by
  have step := Tour.Gains.foldl (f := fun (t : TypeDef) => t.tour [])
    (fun type t => type.tour_gains [] t (List.forall_mem_nil _)) after (typesTour before)
  simpa only [typesTour, Schema.tour, List.foldl_append, List.foldl_nil] using step

theorem Schema.tour_gains (s : Schema) :
    (typesTour s.types).Gains [] (s.elements.flatMap fun e => typesOf (e :: e.inner)) s.tour :=
  Tour.Gains.foldl (f := fun (e : ElementDecl) => e.tour []) (fun e t => e.tour_gains [] t) s.elements
    (typesTour s.types)

/-- A named type that has been gone through before is passed over; else its name comes last. -/
theorem tour_of_named (tour : Tour) (named : t.name? = some name) :
    (name ∈ tour.done ∧ t.tour [] tour = tour) ∨ name ∉ tour.done ∧
      ∃ more, (t.tour [] tour).done = tour.done ++ (more ++ [name]) ∧
        ∀ other ∈ more, other ∉ tour.done ∧ t.name? ≠ some other := by
  have same : t.tour [] tour = tour.once (some name) t.inline.tour [] := by
    rw [← named]
    cases t <;> rfl
  rw [same]
  by_cases met : name ∈ tour.done
  · exact .inl ⟨met, Tour.once_of_mem met⟩
  have unnamed : t.inline.name? = none := by cases t <;> rfl
  obtain ⟨more, done, _, new⟩ := t.inline.tour_gains [name] tour fun _ _ named => by
    cases unnamed.symm.trans named
  refine .inr ⟨met, more, by rw [Tour.once_of_new met, done, List.append_assoc], fun other mem => ?_⟩
  obtain ⟨fresh, apart, _⟩ := new other mem
  exact ⟨fresh, fun same => apart (List.mem_singleton.2 (Option.some.inj (same.symm.trans named)))⟩

theorem mem_done_of_declared (mem : name ∈ declaredNames ts) : name ∈ (typesTour ts).done := by
  obtain ⟨type, here, named⟩ := List.mem_filterMap.1 mem
  obtain ⟨before, after, rfl⟩ := List.append_of_mem here
  have first : name ∈ (typesTour (before ++ [type])).done := by
    rw [typesTour_concat]
    rcases tour_of_named (typesTour before) named with ⟨met, same⟩ | ⟨_, more, done, _⟩
    · rwa [same]
    · simp [done]
  obtain ⟨more, done, _⟩ := typesTour_gains (before ++ [type]) after
  rw [List.append_assoc, List.singleton_append] at done
  rw [done]
  exact List.mem_append_left _ first

theorem declaredNames_concat :
    declaredNames (before ++ [t]) = declaredNames before ++ t.name?.toList := by
  simp only [declaredNames, List.filterMap_append]
  cases named : t.name? <;> simp [named]

/-- Of the given names, those that are done with after the types are the names of these, in the order
of their first declaration. -/
def Listed (names : List QName) (ts : List TypeDef) : Prop :=
  (typesTour ts).done.filter (· ∈ names) = (declaredNames ts).eraseDups

/-- Whatever declared name is done with after the first types is the name of one of these. -/
def Schema.RefersBack (s : Schema) : Prop :=
  ∀ before, before <+: s.types → ∀ name ∈ declaredNames s.types,
    name ∈ (typesTour before).done → name ∈ declaredNames before

theorem Listed.declared {names : List QName} (listed : Listed names ts) (among : name ∈ names)
    (met : name ∈ (typesTour ts).done) : name ∈ declaredNames ts := by
  rw [← List.mem_eraseDups, ← listed]
  exact List.mem_filter.2 ⟨met, decide_eq_true among⟩

section

variable {names fresh : List QName} (here : Listed names before) (own : t.name? = some name)
include own

theorem eraseDups_of_new (unmet : name ∉ (typesTour before).done) :
    (declaredNames (before ++ [t])).eraseDups = (declaredNames before).eraseDups ++ [name] := by
  rw [declaredNames_concat, own, Option.toList_some, eraseDups_concat,
    if_neg fun old => unmet (mem_done_of_declared old)]

include here

/-- A type that was done with before its declaration was declared under its name before. -/
theorem listed_of_met (given : name ∈ names) (met : name ∈ (typesTour before).done)
    (same : t.tour [] (typesTour before) = typesTour before) : Listed names (before ++ [t]) := by
  rw [Listed, typesTour_concat, same, here, declaredNames_concat, own, Option.toList_some,
    eraseDups_concat, if_pos (here.declared given met)]

omit own in
theorem filter_done_of_new (given : name ∈ names)
    (done : (t.tour [] (typesTour before)).done = (typesTour before).done ++ (fresh ++ [name])) :
    (typesTour (before ++ [t])).done.filter (· ∈ names) =
      (declaredNames before).eraseDups ++ (fresh.filter (· ∈ names) ++ [name]) := by
  have last : [name].filter (· ∈ names) = [name] := by simp [given]
  rw [typesTour_concat, done, List.filter_append, List.filter_append, here, last]

theorem listed_of_new (given : name ∈ names) (unmet : name ∉ (typesTour before).done)
    (done : (t.tour [] (typesTour before)).done = (typesTour before).done ++ (fresh ++ [name]))
    (none : fresh.filter (· ∈ names) = []) : Listed names (before ++ [t]) := by
  rw [Listed, filter_done_of_new here given done, eraseDups_of_new own unmet, none, List.nil_append]

end

theorem listed_concat {names : List QName} (here : Listed names before)
    (among : declaredNames (before ++ [t]) ⊆ names)
    (back : ∀ name ∈ names, name ∈ (typesTour (before ++ [t])).done →
      name ∈ declaredNames (before ++ [t])) : Listed names (before ++ [t]) := by
  rw [declaredNames_concat] at among
  rw [typesTour_concat] at back
  -- names of other types that are new are not among the given ones: these would be declared by now
  have nothing (fresh : List QName) (inside : fresh ⊆ (t.tour [] (typesTour before)).done)
      (new : ∀ name ∈ fresh, name ∉ (typesTour before).done ∧ t.name? ≠ some name) :
      fresh.filter (· ∈ names) = [] := by
    refine List.filter_eq_nil_iff.2 fun name mem given => ?_
    have known := back name (of_decide_eq_true given) (inside mem)
    rw [declaredNames_concat] at known
    rcases List.mem_append.1 known with old | own
    · exact (new name mem).1 (mem_done_of_declared old)
    · exact (new name mem).2 (Option.mem_toList.1 own)
  cases own : t.name? with
  | none =>
    obtain ⟨fresh, done, _, new⟩ := typesTour_gains before [t]
    rw [typesTour_concat] at done
    have none := nothing fresh (done ▸ List.subset_append_right _ _) fun name mem =>
      ⟨(new name mem).1, by rw [own]; exact nofun⟩
    rw [Listed, typesTour_concat, done, List.filter_append, here, none, declaredNames_concat, own,
      Option.toList_none, List.append_nil, List.append_nil]
  | some name =>
    have given : name ∈ names := among (by simp [own])
    rcases tour_of_named (typesTour before) own with ⟨met, same⟩ | ⟨unmet, fresh, done, new⟩
    · exact listed_of_met here own given met same
    · exact listed_of_new here own given unmet done
        (nothing fresh (fun _ mem => by simp [done, mem]) new)

theorem listed_of_refersBack {s : Schema} (back : s.RefersBack) :
    ∀ before, before <+: s.types → Listed (declaredNames s.types) before := by
  intro before
  induction before using List.reverseRecOn with
  | nil => exact fun _ => rfl
  | append_singleton before t ih =>
    exact fun part => listed_concat (ih ((List.prefix_append before [t]).trans part))
      (part.filterMap TypeDef.name?).subset (back _ part)

theorem done_isPrefix {s : Schema} (part : before <+: s.types) :
    (typesTour before).done <+: s.tour.done := by
  obtain ⟨after, split⟩ := part
  obtain ⟨more, types, _⟩ := typesTour_gains before after
  obtain ⟨last, elements, _⟩ := s.tour_gains
  rw [elements, ← split, types, List.append_assoc]
  exact List.prefix_append _ _

theorem eraseDups_isPrefix {names names' : List QName} (part : names <+: names') :
    names.eraseDups <+: names'.eraseDups := by
  obtain ⟨more, rfl⟩ := part
  rw [List.eraseDups_append]
  exact List.prefix_append _ _

theorem eq_nil_of_isPrefix {names all : List QName} (first : names ++ [name] <+: all)
    (second : [name] <+: all) (apart : name ∉ names) : names = [] := by
  cases names with
  | nil => rfl
  | cons other names =>
    obtain ⟨rest, rfl⟩ := first
    obtain ⟨rest', same⟩ := second
    exact absurd ((List.cons.inj same).1 ▸ List.mem_cons_self) apart

/-- If all types have names, and the names come in the order of declaration in the end, they do so at
each point. -/
theorem listed_of_filter {s : Schema} (named : ∀ t ∈ s.types, t.name?.isSome = true)
    (final : s.tour.done.filter (· ∈ declaredNames s.types) = (declaredNames s.types).eraseDups) :
    ∀ before, before <+: s.types → Listed (declaredNames s.types) before := by
  intro before
  induction before using List.reverseRecOn with
  | nil => exact fun _ => rfl
  | append_singleton before t ih =>
    intro part
    have here := ih ((List.prefix_append before [t]).trans part)
    have mem : t ∈ s.types := part.subset (by simp)
    obtain ⟨name, own⟩ := Option.isSome_iff_exists.1 (named t mem)
    have given : name ∈ declaredNames s.types := List.mem_filterMap.2 ⟨t, mem, own⟩
    rcases tour_of_named (typesTour before) own with ⟨met, same⟩ | ⟨unmet, fresh, done, new⟩
    · exact listed_of_met here own given met same
    -- in the end `name` comes next, both with what was new before it and without
    have first := (done_isPrefix part).filter (· ∈ declaredNames s.types)
    rw [filter_done_of_new here given done, final] at first
    have second : (declaredNames (before ++ [t])).eraseDups <+: (declaredNames s.types).eraseDups :=
      eraseDups_isPrefix (part.filterMap TypeDef.name?)
    rw [eraseDups_of_new own unmet] at second
    obtain ⟨later, split⟩ := second
    rw [← split, List.append_assoc, List.prefix_append_right_inj] at first
    refine listed_of_new here own given unmet done ?_
    exact eq_nil_of_isPrefix first (List.prefix_append _ _) fun mem =>
      (new name (List.mem_of_mem_filter mem)).2 own

end

namespace Schema

variable {s : Schema}

theorem listed_types (s : Schema) : Listed (declaredNames s.types) s.types ↔
    s.tour.done.filter (· ∈ declaredNames s.types) = (declaredNames s.types).eraseDups := by
  obtain ⟨more, done, _, new⟩ := s.tour_gains
  have none : more.filter (· ∈ declaredNames s.types) = [] :=
    List.filter_eq_nil_iff.2 fun name mem declared =>
      (new name mem).1 (mem_done_of_declared (of_decide_eq_true declared))
  rw [Listed, done, List.filter_append, none, List.append_nil]

/-- Models that were read refer back. -/
theorem Scoped.refersBack (inOrder : s.Scoped) : s.RefersBack := by
  rintro before ⟨after, split⟩ name _ met
  have order : InOrder before.reverse := by
    have order := inOrder.types
    rw [← split, List.reverse_append] at order
    exact order.of_append
  obtain ⟨names, done, _, new⟩ := typesTour_gains [] before
  have done : (typesTour before).done = names := done
  obtain ⟨_, _, type, inside, named⟩ := new name (done ▸ met)
  obtain ⟨outer, here, inside⟩ := List.mem_flatMap.1 inside
  rcases List.mem_cons.1 inside with rfl | inner
  · exact List.mem_filterMap.2 ⟨type, here, named⟩
  · have declared := order.within outer (List.mem_reverse.2 here) type inner name named
    exact List.mem_filterMap.2 ⟨type, List.mem_reverse.1 declared, named⟩

theorem names_of_compile {o : Options} {r : Compilation} (off : o.skipUnsupported = false)
    (run : s.compile o = .ok r) : r.schema.types.names = s.tour.done := by
  obtain ⟨d, d', entered, settled, canonical⟩ := exists_of_compile run
  have toured := Draft.toured_of_entered off entered settled
  exact (Draft.compiles_of_canonical toured.tracked canonical).types ▸ toured.follows.done

/-- Where nothing may be left out and all declared types have names, the types of a compiled model are
listed in the order in which they are done with, each after the types inside it. The declared ones
among them come in the order of their first declaration if and only if none is done with before it is
declared; so they do in every model that was read from JSON. -/
theorem compile_types_listed {o : Options} {r : Compilation} (off : o.skipUnsupported = false)
    (named : ∀ t ∈ s.types, t.name?.isSome = true) (run : s.compile o = .ok r) :
    r.schema.types.names = s.tour.done ∧
    (r.schema.types.names.filter (· ∈ declaredNames s.types) = (declaredNames s.types).eraseDups ↔
      s.RefersBack) ∧
    ∀ value, ofJson value = .ok s →
      r.schema.types.names.filter (· ∈ declaredNames s.types) = (declaredNames s.types).eraseDups := by
  have names := names_of_compile off run
  have listed (back : s.RefersBack) :
      s.tour.done.filter (· ∈ declaredNames s.types) = (declaredNames s.types).eraseDups :=
    s.listed_types.1 (listed_of_refersBack back s.types (List.prefix_refl _))
  rw [names]
  refine ⟨rfl, ⟨fun final before part name declared met => ?_, listed⟩, fun value read => ?_⟩
  · exact (listed_of_filter named final before part).declared declared met
  · exact listed (ofJson_scoped read).refersBack

/-- A type around an element whose type is declared later. -/
def early : Schema where
  types := [.complex (some ⟨"", "a"⟩) [] none (.elementOnly (.once (.element
      ⟨⟨"", "x"⟩, [], some (.simple (some ⟨"", "b"⟩) .atomic "string")⟩))),
    .simple (some ⟨"", "b"⟩) .atomic "string"]
  elements := []

theorem exists_compile_early : ∃ r, early.compile {} = .ok r :=
  exists_compile_of_isOk (by decide +kernel)

/-- The later type is listed first. -/
theorem early_listed : ∃ r, early.compile {} = .ok r ∧
    r.schema.types.names.filter (· ∈ declaredNames early.types) = [⟨"", "b"⟩, ⟨"", "a"⟩] ∧
    (declaredNames early.types).eraseDups = [⟨"", "a"⟩, ⟨"", "b"⟩] := by
  obtain ⟨r, run⟩ := exists_compile_early
  refine ⟨r, run, ?_, by decide +kernel⟩
  rw [names_of_compile rfl run]
  decide +kernel

theorem compile_types_listed_early : ∃ r, early.compile {} = .ok r ∧
    r.schema.types.names = [⟨"", "b"⟩, ⟨"", "a"⟩] ∧ ¬ early.RefersBack := by
  obtain ⟨r, run⟩ := exists_compile_early
  obtain ⟨names, iff, _⟩ := compile_types_listed rfl (by decide +kernel) run
  refine ⟨r, run, names.trans (by decide +kernel), fun back => ?_⟩
  have same := iff.2 back
  rw [names] at same
  exact absurd same (by decide +kernel)

end Schema

end ExiSchema
