import Mathlib.Data.List.TakeWhile
import ExiSchema.Name

/-!
Written names read back. A name is read from its braced form, or from its local name alone where it
has no namespace and the local name opens no brace. The written form always drops the braces of an
empty namespace, so exactly the names without a namespace whose local name opens a brace are lost.
-/

set_option autoImplicit false

namespace ExiSchema.QName

variable {q : QName} {text : String}

/-- The written form with braces, also around an empty namespace. -/
def toBraced (q : QName) : String := "\x7b" ++ q.uri ++ "\x7d" ++ q.localName

def OpensBrace (localName : String) : Prop := localName.toList.head? = some '{'

instance (localName : String) : Decidable (OpensBrace localName) :=
  inferInstanceAs (Decidable (_ = _))

theorem toList_toBraced (q : QName) :
    q.toBraced.toList = '{' :: (q.uri.toList ++ '}' :: q.localName.toList) := by
  simp [toBraced]

theorem toText_of_uri (uri : q.uri ≠ "") : q.toText = q.toBraced := by
  rw [toText, if_neg (mt String.isEmpty_iff.1 uri), toBraced]

theorem toText_of_noUri (uri : q.uri = "") : q.toText = q.localName := by
  rw [toText, if_pos (String.isEmpty_iff.2 uri)]

/-- The first closing brace ends the namespace. -/
theorem ofText?_toBraced (closed : '}' ∉ q.uri.toList) (named : q.localName ≠ "") :
    ofText? q.toBraced = some q := by
  have free : ∀ c ∈ q.uri.toList, (c != '}') = true := fun c mem =>
    bne_iff_ne.2 (ne_of_mem_of_not_mem mem closed)
  obtain ⟨c, cs, here⟩ : ∃ c cs, q.localName.toList = c :: cs :=
    List.exists_cons_of_ne_nil fun none => named (String.toList_injective none)
  have uri : (q.uri.toList ++ '}' :: c :: cs).takeWhile (· != '}') = q.uri.toList := by
    simp [List.takeWhile_append_of_pos free]
  have rest : (q.uri.toList ++ '}' :: c :: cs).dropWhile (· != '}') = '}' :: c :: cs := by
    simp [List.dropWhile_append_of_pos free]
  simp only [ofText?, toList_toBraced, here, uri, rest]
  rw [← here, String.ofList_toList, String.ofList_toList]

/-- Without an opening brace the whole text is the local name. -/
theorem ofText?_bare (named : text ≠ "") (bare : ¬OpensBrace text) :
    ofText? text = some ⟨"", text⟩ := by
  unfold ofText?
  split
  · next none => exact absurd (String.toList_injective none) named
  · next rest braced => exact absurd (by rw [OpensBrace, braced]; rfl) bare
  · rfl

/-- What is left behind the first closing brace, and what stands before it. -/
theorem eq_of_dropWhile {rest after : List Char} {close : Char}
    (left : rest.dropWhile (· != '}') = close :: after) :
    rest = rest.takeWhile (· != '}') ++ '}' :: after := by
  have closing : close = '}' := by
    have last := List.head_dropWhile_not (p := (· != '}')) (l := rest) (by simp [left])
    simpa [left] using last
  calc rest = rest.takeWhile (· != '}') ++ rest.dropWhile (· != '}') :=
        List.takeWhile_append_dropWhile.symm
    _ = _ := by rw [left, closing]

/-- Reading accepts exactly the two written forms of names. -/
theorem ofText?_eq_some_iff : ofText? text = some q ↔ q.localName ≠ "" ∧
    ('}' ∉ q.uri.toList ∧ text = q.toBraced ∨
      q.uri = "" ∧ ¬OpensBrace q.localName ∧ text = q.localName) := by
  constructor
  · intro read
    unfold ofText? at read
    split at read
    · cases read
    · next rest braced =>
      split at read
      · next close c cs left =>
        cases read
        refine ⟨by simp, .inl ⟨fun mem => ?_, String.toList_injective ?_⟩⟩
        · exact absurd (List.mem_takeWhile_imp (String.toList_ofList ▸ mem)) (by decide)
        · rw [toList_toBraced, braced, String.toList_ofList, String.toList_ofList,
            ← eq_of_dropWhile left]
      · cases read
    · next filled bare =>
      cases read
      refine ⟨fun none => filled (congrArg String.toList none), .inr ⟨rfl, fun opens => ?_, rfl⟩⟩
      obtain ⟨rest, braced⟩ := List.head?_eq_some_iff.1 opens
      exact bare rest braced
  · rintro ⟨named, ⟨closed, rfl⟩ | ⟨uri, bare, rfl⟩⟩
    · exact ofText?_toBraced closed named
    · rw [ofText?_bare named bare, ← uri]

/-- Where the braces of an empty namespace are left out, a local name that opens a brace is misread. -/
theorem ofText?_toText_iff (named : q.localName ≠ "") (closed : '}' ∉ q.uri.toList) :
    ofText? q.toText = some q ↔ ¬(q.uri = "" ∧ OpensBrace q.localName) := by
  by_cases uri : q.uri = ""
  · rw [toText_of_noUri uri, ofText?_eq_some_iff]
    have shorter : q.localName ≠ q.toBraced := fun same => by
      have length := congrArg (fun text => text.toList.length) same
      simp only [toList_toBraced, List.length_cons, List.length_append] at length
      omega
    simp [named, uri, shorter]
  · rw [toText_of_uri uri, ofText?_toBraced closed named]
    simp [uri]

theorem opensBrace_iff {localName : String} :
    OpensBrace localName ↔ ['{'] <+: localName.toList := by
  rw [OpensBrace, List.head?_eq_some_iff]
  exact exists_congr fun rest => eq_comm

/-- An empty namespace is closed at once. -/
theorem isPrefix_toBraced_iff (closed : '}' ∉ q.uri.toList) :
    ['{', '}', '{'] <+: q.toBraced.toList ↔ q.uri = "" ∧ OpensBrace q.localName := by
  rw [toList_toBraced, opensBrace_iff]
  cases uri : q.uri.toList with
  | nil =>
    have none : q.uri = "" := String.toList_injective uri
    simp [none]
  | cons c cs =>
    have some : q.uri ≠ "" := fun none => by simp [none] at uri
    have other : '}' ≠ c := fun same => closed (by rw [uri, same]; exact List.mem_cons_self)
    simp [some, other]

/-- A name that was read is read again from what is written for it, if and only if it has a namespace
or its local name opens no brace. The texts of the others are those that begin with an empty pair of
braces and one more brace. -/
theorem reads_back_iff (read : ofText? text = some q) :
    (ofText? q.toText = some q ↔ ¬(q.uri = "" ∧ OpensBrace q.localName)) ∧
      (q.uri = "" ∧ OpensBrace q.localName ↔ ['{', '}', '{'] <+: text.toList) := by
  obtain ⟨named, form⟩ := ofText?_eq_some_iff.1 read
  rcases form with ⟨closed, rfl⟩ | ⟨uri, bare, rfl⟩
  · exact ⟨ofText?_toText_iff named closed, (isPrefix_toBraced_iff closed).symm⟩
  · refine ⟨ofText?_toText_iff named (by simp [uri]), ?_⟩
    have opens : ['{', '}', '{'] <+: q.localName.toList → OpensBrace q.localName := fun start =>
      opensBrace_iff.2 ((List.prefix_append ['{'] ['}', '{']).trans start)
    exact ⟨fun both => absurd both.2 bare, fun start => absurd (opens start) bare⟩

/-- Braces inside the namespace and at the front of the local name do no harm. -/
theorem reads_back_braces : ofText? "\x7b\x7ba\x7d\x7bb" = some ⟨"\x7ba", "\x7bb"⟩ ∧
    ofText? (toText ⟨"\x7ba", "\x7bb"⟩) = some ⟨"\x7ba", "\x7bb"⟩ := by
  have read : ofText? "\x7b\x7ba\x7d\x7bb" = some ⟨"\x7ba", "\x7bb"⟩ := by decide +kernel
  exact ⟨read, (reads_back_iff read).1.2 (by decide)⟩

/-- What is read is a local name that opens a brace. Written without the empty braces, it is read as
another name. -/
theorem reads_back_otherwise : ofText? "\x7b\x7d\x7ba\x7db" = some ⟨"", "\x7ba\x7db"⟩ ∧
    ofText? (toText ⟨"", "\x7ba\x7db"⟩) = some ⟨"a", "b"⟩ := by
  decide +kernel

end ExiSchema.QName
