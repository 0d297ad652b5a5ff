import Mathlib
import ExiSchema.Text.Cuts

/-!
Texts cut at their separators. The cuts are exactly the maximal stretches without a separator, in the
order in which they stand, and around them there are separators only.
-/

set_option autoImplicit false

namespace ExiSchema.Text

variable {α : Type} {separator : α → Bool} {cs : List α} {start stop a b : Nat} {ps : List Nat}
  {tokens : List (List α)}

/-- A stretch of a text that is not empty, has no separator in it and cannot be made longer. -/
structure Stretch (separator : α → Bool) (cs : List α) (start stop : Nat) : Prop where
  nonempty : start < stop
  inside : stop ≤ cs.length
  clear : ∀ i c, start ≤ i → i < stop → cs[i]? = some c → separator c = false
  opens : start = 0 ∨ ∃ i c, start = i + 1 ∧ cs[i]? = some c ∧ separator c = true
  closes : stop = cs.length ∨ ∃ c, cs[stop]? = some c ∧ separator c = true

def Gap (separator : α → Bool) (cs : List α) : Prop := ∀ c ∈ cs, separator c = true

/-- A text is the tokens in their order, with separators around them and at least one between two. -/
def Spaced (separator : α → Bool) (tokens : List (List α)) (cs : List α) : Prop :=
  ∃ lead gaps, gaps.length = tokens.length ∧ Gap separator lead ∧
    (∀ gap ∈ gaps, Gap separator gap) ∧ (∀ gap ∈ gaps.dropLast, gap ≠ []) ∧
    cs = lead ++ (List.zipWith (· ++ ·) tokens gaps).flatten

theorem mem_places_iff {i : Nat} :
    i ∈ places separator cs ↔ ∃ c, cs[i]? = some c ∧ separator c = true := by
  constructor
  · intro mem
    obtain ⟨⟨c, j⟩, found, rfl⟩ := List.mem_map.1 mem
    obtain ⟨here, separates⟩ := List.mem_filter.1 found
    exact ⟨c, List.mem_zipIdx_iff_getElem?.1 here, separates⟩
  · rintro ⟨c, here, separates⟩
    have found : (c, i) ∈ cs.zipIdx := List.mem_zipIdx_iff_getElem?.2 here
    exact List.mem_map.2 ⟨(c, i), List.mem_filter.2 ⟨found, separates⟩, rfl⟩

theorem pairwise_places (separator : α → Bool) (cs : List α) :
    (places separator cs).Pairwise (· < ·) := by
  have all : (cs.zipIdx.map Prod.snd).Pairwise (· < ·) := by
    rw [List.zipIdx_map_snd]
    exact List.pairwise_lt_range'
  exact all.sublist (List.filter_sublist.map Prod.snd)

theorem lt_length_of_mem_places {i : Nat} (mem : i ∈ places separator cs) : i < cs.length := by
  obtain ⟨c, here, _⟩ := mem_places_iff.1 mem
  exact (List.getElem?_eq_some_iff.1 here).1

theorem mem_cutsFrom_cons_iff {p : Nat} :
    (a, b) ∈ cutsFrom start stop (p :: ps) ↔
      (a = start ∧ b = p ∧ start < p) ∨ (a, b) ∈ cutsFrom (p + 1) stop ps := by
  rw [cutsFrom]
  split
  · next lt => simp [lt]
  · next ge => simp [ge]

section

variable (ascending : ps.Pairwise (· < ·)) (low : ∀ p ∈ ps, start ≤ p)
include ascending low

/-- A cut starts where the text starts or behind a separator, and stops where the text stops or at a
separator. -/
theorem mem_cutsFrom_iff (high : ∀ p ∈ ps, p < stop) :
    (a, b) ∈ cutsFrom start stop ps ↔
      a < b ∧ b ≤ stop ∧ (∀ p ∈ ps, p < a ∨ b ≤ p) ∧ (a = start ∨ ∃ p ∈ ps, a = p + 1) ∧
        (b = stop ∨ b ∈ ps) := by
  induction ps generalizing start with
  | nil =>
    rw [cutsFrom]
    split <;> simp <;> omega
  | cons p ps ih =>
    obtain ⟨first, ascending⟩ := List.pairwise_cons.1 ascending
    have here := low p List.mem_cons_self
    have inside := high p List.mem_cons_self
    rw [mem_cutsFrom_cons_iff,
      ih ascending (fun q mem => first q mem) fun q mem => high q (List.mem_cons_of_mem _ mem)]
    constructor
    · rintro (⟨rfl, rfl, lt⟩ | ⟨lt, le, clear, opens, closes⟩)
      · have clear : ∀ q ∈ ps, q < a ∨ b ≤ q := fun q mem => .inr (first q mem).le
        exact ⟨lt, inside.le, List.forall_mem_cons.2 ⟨.inr le_rfl, clear⟩, .inl rfl,
          .inr List.mem_cons_self⟩
      · have behind : p < a ∧ ∃ q ∈ p :: ps, a = q + 1 := by
          rcases opens with rfl | ⟨q, mem, rfl⟩
          · exact ⟨Nat.lt_succ_self p, p, List.mem_cons_self, rfl⟩
          · exact ⟨(first q mem).trans (Nat.lt_succ_self q), q, List.mem_cons_of_mem _ mem, rfl⟩
        exact ⟨lt, le, List.forall_mem_cons.2 ⟨.inl behind.1, clear⟩, .inr behind.2,
          closes.imp_right (List.mem_cons_of_mem _)⟩
    · rintro ⟨lt, le, clear, opens, closes⟩
      rcases clear p List.mem_cons_self with behind | before
      · refine .inr ⟨lt, le, fun q mem => clear q (List.mem_cons_of_mem _ mem), ?_, ?_⟩
        · rcases opens with rfl | ⟨q, mem, rfl⟩
          · omega
          · exact (List.mem_cons.1 mem).imp (congrArg (· + 1)) fun later => ⟨q, later, rfl⟩
        · refine closes.imp_right fun mem => (List.mem_cons.1 mem).resolve_left ?_
          omega
      · have opened : a = start := by
          refine opens.resolve_right ?_
          rintro ⟨q, mem, rfl⟩
          rcases List.mem_cons.1 mem with rfl | later
          · omega
          · have := first q later
            omega
        have closed : b = p := by
          rcases closes with rfl | mem
          · omega
          · refine (List.mem_cons.1 mem).resolve_right fun later => ?_
            have := first b later
            omega
        exact .inl ⟨opened, closed, by omega⟩

/-- Between two cuts there is room for a separator. -/
theorem pairwise_cutsFrom (high : ∀ p ∈ ps, p < stop) :
    (cutsFrom start stop ps).Pairwise fun cut later => cut.2 < later.1 := by
  induction ps generalizing start with
  | nil =>
    rw [cutsFrom]
    split <;> simp
  | cons p ps ih =>
    obtain ⟨first, ascending⟩ := List.pairwise_cons.1 ascending
    have later := fun q mem => high q (List.mem_cons_of_mem p mem)
    have rest := ih ascending (fun q mem => first q mem) later
    rw [cutsFrom]
    split
    · refine List.pairwise_cons.2 ⟨fun cut mem => ?_, rest⟩
      obtain ⟨_, _, _, opens, _⟩ := (mem_cutsFrom_iff ascending (fun q mem => first q mem) later).1 mem
      rcases opens with same | ⟨q, inner, same⟩
      · omega
      · have := first q inner
        omega
    · exact rest

end

/-- The cuts of a text are its maximal stretches without a separator. -/
theorem mem_cuts_iff : (a, b) ∈ cuts separator cs ↔ Stretch separator cs a b := by
  rw [cuts, mem_cutsFrom_iff (pairwise_places separator cs) (fun _ _ => Nat.zero_le _)
    fun _ => lt_length_of_mem_places]
  constructor
  · rintro ⟨lt, le, clear, opens, closes⟩
    refine ⟨lt, le, fun i c low high here => ?_, ?_, closes.imp_right mem_places_iff.1⟩
    · by_contra separates
      have := clear i (mem_places_iff.2 ⟨c, here, Bool.of_not_eq_false separates⟩)
      omega
    · refine opens.imp_right ?_
      rintro ⟨i, mem, rfl⟩
      obtain ⟨c, here, separates⟩ := mem_places_iff.1 mem
      exact ⟨i, c, rfl, here, separates⟩
  · rintro ⟨lt, le, clear, opens, closes⟩
    refine ⟨lt, le, fun i mem => ?_, ?_, closes.imp_right mem_places_iff.2⟩
    · obtain ⟨c, here, separates⟩ := mem_places_iff.1 mem
      by_contra within
      have free := clear i c (by omega) (by omega) here
      rw [separates] at free
      cases free
    · refine opens.imp_right ?_
      rintro ⟨i, c, rfl, here, separates⟩
      exact ⟨i, mem_places_iff.2 ⟨c, here, separates⟩, rfl⟩

theorem pairwise_cuts (separator : α → Bool) (cs : List α) :
    (cuts separator cs).Pairwise fun cut later => cut.2 < later.1 :=
  pairwise_cutsFrom (pairwise_places separator cs) (fun _ _ => Nat.zero_le _)
    fun _ => lt_length_of_mem_places

theorem Spaced.nil : Spaced separator [] [] := ⟨[], [], rfl, by simp [Gap]⟩

theorem Spaced.single (token : List α) : Spaced separator [token] token :=
  ⟨[], [[]], rfl, by simp [Gap]⟩

theorem Spaced.skip {c : α} (spaced : Spaced separator tokens cs) (separates : separator c = true) :
    Spaced separator tokens (c :: cs) := by
  obtain ⟨lead, gaps, length, before, free, between, rfl⟩ := spaced
  exact ⟨c :: lead, gaps, length, List.forall_mem_cons.2 ⟨separates, before⟩, free, between, rfl⟩

/-- The separator behind the token keeps it apart from the next one. -/
theorem Spaced.cons {c : α} (spaced : Spaced separator tokens cs) (token : List α)
    (separates : separator c = true) : Spaced separator (token :: tokens) (token ++ c :: cs) := by
  obtain ⟨lead, gaps, length, before, free, between, rfl⟩ := spaced
  refine ⟨[], (c :: lead) :: gaps, congrArg (· + 1) length, by simp [Gap], ?_, ?_, by simp⟩
  · exact List.forall_mem_cons.2 ⟨List.forall_mem_cons.2 ⟨separates, before⟩, free⟩
  · cases gaps with
    | nil => simp
    | cons gap gaps => exact List.forall_mem_cons.2 ⟨List.cons_ne_nil c lead, between⟩

theorem spaced_cutsFrom (ascending : ps.Pairwise (· < ·)) (low : ∀ p ∈ ps, start ≤ p)
    (separate : ∀ p ∈ ps, ∃ c, cs[p]? = some c ∧ separator c = true) :
    Spaced separator ((cutsFrom start cs.length ps).map fun cut => cs.extract cut.1 cut.2)
      (cs.drop start) := by
  induction ps generalizing start with
  | nil =>
    rw [cutsFrom]
    split
    · have whole : cs.extract start cs.length = cs.drop start :=
        List.take_of_length_le (by rw [List.length_drop])
      rw [List.map_singleton, whole]
      exact .single _
    · next ge =>
      rw [List.drop_of_length_le (Nat.le_of_not_lt ge)]
      exact .nil
  | cons p ps ih =>
    obtain ⟨first, ascending⟩ := List.pairwise_cons.1 ascending
    obtain ⟨c, here, separates⟩ := separate p List.mem_cons_self
    have rest := ih ascending (fun q mem => first q mem) fun q mem =>
      separate q (List.mem_cons_of_mem _ mem)
    have behind : cs.drop p = c :: cs.drop (p + 1) := by
      obtain ⟨lt, same⟩ := List.getElem?_eq_some_iff.1 here
      rw [List.drop_eq_getElem_cons lt, same]
    have start_le := low p List.mem_cons_self
    have parts : cs.drop start = cs.extract start p ++ c :: cs.drop (p + 1) := by
      have split := (List.take_append_drop (p - start) (cs.drop start)).symm
      rwa [List.drop_drop, Nat.add_sub_cancel' start_le, behind] at split
    rw [cutsFrom]
    split
    · rw [List.map_cons, parts]
      exact rest.cons _ separates
    · next ge =>
      obtain rfl : start = p := by omega
      rw [behind]
      exact rest.skip separates

/-- Around the cuts there are separators only. -/
theorem spaced_cuts (separator : α → Bool) (cs : List α) :
    Spaced separator ((cuts separator cs).map fun cut => cs.extract cut.1 cut.2) cs :=
  @spaced_cutsFrom α separator cs 0 _ (pairwise_places separator cs) (fun _ _ => Nat.zero_le _)
    fun _ => mem_places_iff.1

theorem Spaced.gap_of_nil (spaced : Spaced separator [] cs) : Gap separator cs := by
  obtain ⟨lead, gaps, _, before, _, _, rfl⟩ := spaced
  simpa using before

namespace Stretch

variable (stretch : Stretch separator cs start stop)
include stretch

theorem length_extract : (cs.extract start stop).length = stop - start := by
  rw [List.length_take, List.length_drop]
  have := stretch.inside
  omega

theorem extract_ne_nil : cs.extract start stop ≠ [] := by
  refine List.ne_nil_of_length_pos ?_
  rw [stretch.length_extract]
  have := stretch.nonempty
  omega

theorem separator_eq_false {c : α} (mem : c ∈ cs.extract start stop) : separator c = false := by
  obtain ⟨i, lt, here⟩ := List.mem_iff_getElem.1 mem
  rw [stretch.length_extract] at lt
  refine stretch.clear (start + i) c (Nat.le_add_right _ _) (by omega) ?_
  rw [← here, List.getElem_take, List.getElem_drop, List.getElem?_eq_getElem]

end Stretch

/-- Where there is nothing but separators, nothing is left. -/
theorem cuts_eq_nil_iff : cuts separator cs = [] ↔ Gap separator cs := by
  constructor
  · intro none
    have spaced := spaced_cuts separator cs
    rw [none] at spaced
    exact spaced.gap_of_nil
  · intro gap
    refine List.eq_nil_iff_forall_not_mem.2 fun cut mem => ?_
    have stretch := mem_cuts_iff.1 mem
    obtain ⟨c, here⟩ := List.exists_mem_of_ne_nil _ stretch.extract_ne_nil
    have within : c ∈ cs := List.mem_of_mem_drop (List.mem_of_mem_take here)
    have free := stretch.separator_eq_false here
    rw [gap c within] at free
    cases free

end ExiSchema.Text
