import ExiSchema.Proofs.Actions
import Mathlib.Data.List.Forall2

/-!
Lists that are gone through one element after the other, where any element may fail. All of them have
results, or the first one without decides.
-/

set_option autoImplicit false

namespace ExiSchema

section Related

variable {α β γ : Type} {R : α → β → Prop} {as : List α} {bs : List β}

theorem exists_of_mem_forall₂ {a : α} (all : List.Forall₂ R as bs) (mem : a ∈ as) :
    ∃ b ∈ bs, R a b := by
  induction all with
  | nil => cases mem
  | cons first _ ih =>
    rcases List.mem_cons.1 mem with rfl | later
    · exact ⟨_, List.mem_cons_self, first⟩
    · obtain ⟨b, mem', here⟩ := ih later
      exact ⟨b, List.mem_cons_of_mem _ mem', here⟩

theorem exists_forall₂ (each : ∀ a ∈ as, ∃ b, R a b) : ∃ bs, List.Forall₂ R as bs := by
  induction as with
  | nil => exact ⟨[], .nil⟩
  | cons a as ih =>
    obtain ⟨b, first⟩ := each a List.mem_cons_self
    obtain ⟨bs, rest⟩ := ih fun a' mem => each a' (List.mem_cons_of_mem a mem)
    exact ⟨b :: bs, .cons first rest⟩

theorem forall₂_replicate {a : α} {b : β} (here : R a b) (n : Nat) :
    List.Forall₂ R (List.replicate n a) (List.replicate n b) := by
  induction n with
  | zero => exact .nil
  | succ n ih => exact .cons here ih

theorem forall₂_iff_getElem? :
    List.Forall₂ R as bs ↔ as.length = bs.length ∧
      ∀ (i : Nat) (a : α) (b : β), as[i]? = some a → bs[i]? = some b → R a b := by
  rw [List.forall₂_iff_get]
  simp only [List.get_eq_getElem, List.getElem?_eq_some_iff]
  constructor
  · rintro ⟨length, each⟩
    refine ⟨length, ?_⟩
    rintro i _ _ ⟨lt, rfl⟩ ⟨lt', rfl⟩
    exact each i lt lt'
  · rintro ⟨length, each⟩
    exact ⟨length, fun i lt lt' => each i _ _ ⟨lt, rfl⟩ ⟨lt', rfl⟩⟩

/-- What two lists have to do with a third one says what they have to do with each other. -/
theorem forall₂_join {S : α → γ → Prop} {T : β → γ → Prop} {cs : List γ}
    (first : List.Forall₂ R as bs) (second : List.Forall₂ S as cs)
    (both : ∀ a b c, R a b → S a c → T b c) : List.Forall₂ T bs cs := by
  induction first generalizing cs with
  | nil =>
    cases second
    exact .nil
  | cons here _ ih =>
    cases second with
    | cons here' rest' => exact .cons (both _ _ _ here here') (ih rest')

end Related

variable {α β : Type} {xs : List α} {ys : List β}

theorem mapM_eq_some_iff {f : α → Option β} :
    xs.mapM f = some ys ↔ List.Forall₂ (fun x y => f x = some y) xs ys := by
  induction xs generalizing ys with
  | nil => simp [eq_comm]
  | cons x xs ih =>
    rw [List.mapM_cons]
    simp only [Option.bind_eq_bind, Option.bind_eq_some_iff, ih, List.forall₂_cons_left_iff]
    constructor
    · rintro ⟨y, first, ys', rest, done⟩
      exact ⟨y, ys', first, rest, (Option.some.inj done).symm⟩
    · rintro ⟨y, ys', first, rest, rfl⟩
      exact ⟨y, first, ys', rest, rfl⟩

theorem except_mapM_eq_ok {f : α → Except Fault β} :
    xs.mapM f = .ok ys ↔ List.Forall₂ (fun x y => f x = .ok y) xs ys := by
  induction xs generalizing ys with
  | nil => simp [pure, Except.pure, eq_comm]
  | cons x xs ih =>
    rw [List.mapM_cons]
    simp only [except_bind_eq_ok, ih, List.forall₂_cons_left_iff]
    constructor
    · rintro ⟨y, first, ys', rest, done⟩
      exact ⟨y, ys', first, rest, (Except.ok.inj done).symm⟩
    · rintro ⟨y, ys', first, rest, rfl⟩
      exact ⟨y, first, ys', rest, rfl⟩

theorem except_mapM_eq_error {ε : Type} {p : α → Except ε β} {f : ε} (run : xs.mapM p = .error f) :
    ∃ x ∈ xs, p x = .error f := by
  induction xs with
  | nil => cases run
  | cons x xs ih =>
    rw [List.mapM_cons] at run
    rcases except_bind_eq_error run with first | ⟨b, _, rest⟩
    · exact ⟨x, List.mem_cons_self, first⟩
    · rcases except_bind_eq_error rest with later | ⟨bs, _, done⟩
      · obtain ⟨y, mem, bad⟩ := ih later
        exact ⟨y, List.mem_cons_of_mem x mem, bad⟩
      · cases done

end ExiSchema
