import ExiSchema.Json.Number

/-!
The tokens of JSON text, by the rules of RFC 8259: blanks are space, tab, line feed and carriage
return; a string holds no raw control character and no half of a surrogate pair; a number is too
large if it has no finite double.
-/

set_option autoImplicit false

namespace ExiSchema.Json

inductive Token where
  | openArray
  | closeArray
  | openObject
  | closeObject
  | comma
  | colon
  | null
  | bool (value : Bool)
  | number (literal : NumberLiteral)
  | string (text : String)
deriving DecidableEq, Repr

namespace Token

def isBlank (c : Char) : Bool := c == ' ' || c == '\t' || c == '\n' || c == '\r'

def hexValue? (c : Char) : Option Nat :=
  if '0' ≤ c && c ≤ '9' then some (c.toNat - '0'.toNat)
  else if 'a' ≤ c && c ≤ 'f' then some (c.toNat - 'a'.toNat + 10)
  else if 'A' ≤ c && c ≤ 'F' then some (c.toNat - 'A'.toNat + 10)
  else none

/-- A code unit written with four hexadecimal digits. -/
def unit? (a b c d : Char) : Option Nat := do
  return (((← hexValue? a) * 16 + (← hexValue? b)) * 16 + (← hexValue? c)) * 16 + (← hexValue? d)

def isLeadingSurrogate (unit : Nat) : Bool := 0xD800 ≤ unit && unit < 0xDC00

def isTrailingSurrogate (unit : Nat) : Bool := 0xDC00 ≤ unit && unit < 0xE000

/-- The character of an escape that is one letter long. -/
def shortEscape? : Char → Option Char
  | '"' => some '"'
  | '\\' => some '\\'
  | '/' => some '/'
  | 'b' => some '\x08'
  | 'f' => some '\x0c'
  | 'n' => some '\n'
  | 'r' => some '\r'
  | 't' => some '\t'
  | _ => none

/-- The rest of a string, up to and with its closing quote; `read` holds what was read of it,
backwards. -/
def string? (read : List Char) : List Char → Option (String × List Char)
  | '"' :: rest => some (String.ofList read.reverse, rest)
  | '\\' :: 'u' :: a :: b :: c :: d :: rest =>
    match unit? a b c d with
    | none => none
    | some unit =>
      if isLeadingSurrogate unit then
        match rest with
        | '\\' :: 'u' :: e :: f :: g :: h :: rest =>
          match unit? e f g h with
          | none => none
          | some low =>
            if isTrailingSurrogate low then
              string? (Char.ofNat (0x10000 + (unit - 0xD800) * 0x400 + (low - 0xDC00)) :: read) rest
            else none
        | _ => none
      else if isTrailingSurrogate unit then none
      else string? (Char.ofNat unit :: read) rest
  | '\\' :: c :: rest =>
    match shortEscape? c with
    | some escaped => string? (escaped :: read) rest
    | none => none
  | c :: rest => if c.toNat < 0x20 || c == '\\' then none else string? (c :: read) rest
  | [] => none

def digits (cs : List Char) : List Nat × List Char :=
  ((cs.takeWhile Char.isDigit).map fun c => c.toNat - '0'.toNat, cs.dropWhile Char.isDigit)

/-- Digits that have to be there. -/
def digits? (cs : List Char) : Option (List Nat × List Char) :=
  match digits cs with
  | ([], _) => none
  | found => some found

/-- Digits without a zero in front of others. -/
def integer? (cs : List Char) : Option (List Nat × List Char) :=
  match digits cs with
  | ([], _) | (0 :: _ :: _, _) => none
  | found => some found

def fraction? : List Char → Option (Option (List Nat) × List Char)
  | '.' :: cs => (digits? cs).map fun (ds, rest) => (some ds, rest)
  | cs => some (none, cs)

def exponentDigits? (sign : Int) (cs : List Char) : Option (Option Int × List Char) :=
  (digits? cs).map fun (ds, rest) => (some (sign * NumberLiteral.decimalValue ds), rest)

def signedExponent? : List Char → Option (Option Int × List Char)
  | '+' :: cs => exponentDigits? 1 cs
  | '-' :: cs => exponentDigits? (-1) cs
  | cs => exponentDigits? 1 cs

def exponent? : List Char → Option (Option Int × List Char)
  | 'e' :: cs | 'E' :: cs => signedExponent? cs
  | cs => some (none, cs)

def unsigned? (negative : Bool) (cs : List Char) : Option (NumberLiteral × List Char) := do
  let (integer, cs) ← integer? cs
  let (fraction, cs) ← fraction? cs
  let (exponent, cs) ← exponent? cs
  let literal : NumberLiteral := ⟨negative, integer, fraction, exponent⟩
  if literal.overflows then none else some (literal, cs)

def number? : List Char → Option (NumberLiteral × List Char)
  | '-' :: cs => unsigned? true cs
  | cs => unsigned? false cs

/-- The first token of a text that does not start with a blank, and what follows it. -/
def first? : List Char → Option (Token × List Char)
  | '[' :: rest => some (.openArray, rest)
  | ']' :: rest => some (.closeArray, rest)
  | '{' :: rest => some (.openObject, rest)
  | '}' :: rest => some (.closeObject, rest)
  | ',' :: rest => some (.comma, rest)
  | ':' :: rest => some (.colon, rest)
  | 'n' :: 'u' :: 'l' :: 'l' :: rest => some (.null, rest)
  | 't' :: 'r' :: 'u' :: 'e' :: rest => some (.bool true, rest)
  | 'f' :: 'a' :: 'l' :: 's' :: 'e' :: rest => some (.bool false, rest)
  | '"' :: rest => (string? [] rest).map fun (text, rest) => (.string text, rest)
  | cs => (number? cs).map fun (literal, rest) => (.number literal, rest)

theorem length_string?_lt {read cs rest : List Char} {text : String}
    (h : string? read cs = some (text, rest)) : rest.length < cs.length := by
  fun_induction string? read cs <;> simp_all <;> omega

theorem length_digits_lt {cs rest : List Char} {d : Nat} {ds : List Nat}
    (h : digits cs = (d :: ds, rest)) : rest.length < cs.length := by
  have split := congrArg List.length (List.takeWhile_append_dropWhile (p := Char.isDigit) (l := cs))
  simp only [digits, Prod.mk.injEq] at h
  obtain ⟨front, rfl⟩ := h
  have one := congrArg List.length front
  simp only [List.length_map, List.length_cons] at one
  simp only [List.length_append] at split
  omega

theorem length_digits?_lt {cs rest : List Char} {ds : List Nat}
    (h : digits? cs = some (ds, rest)) : rest.length < cs.length := by
  unfold digits? at h
  split at h
  · simp at h
  · next found hne =>
    rcases hd : digits cs with ⟨_ | ⟨d, ds'⟩, rest'⟩
    · exact absurd hd (hne _)
    · rw [hd] at h
      cases h
      exact length_digits_lt hd

theorem digits?_of_integer? {cs : List Char} {found : List Nat × List Char}
    (h : integer? cs = some found) : digits? cs = some found := by
  unfold integer? at h
  unfold digits?
  split at h
  · cases h
  · cases h
  · next one _ =>
    cases h
    split
    · next none => exact absurd none (one _)
    · rfl

theorem length_fraction?_le {cs rest : List Char} {ds : Option (List Nat)}
    (h : fraction? cs = some (ds, rest)) : rest.length ≤ cs.length := by
  unfold fraction? at h
  split at h
  · next cs' =>
    simp only [Option.map_eq_some_iff, Prod.exists, Prod.mk.injEq] at h
    obtain ⟨ds', rest', hd, _, rfl⟩ := h
    have := length_digits?_lt hd
    simp only [List.length_cons]
    omega
  · simp only [Option.some.injEq, Prod.mk.injEq] at h
    exact h.2 ▸ Nat.le_refl _

theorem length_exponentDigits?_le {sign : Int} {cs rest : List Char} {e : Option Int}
    (h : exponentDigits? sign cs = some (e, rest)) : rest.length ≤ cs.length := by
  simp only [exponentDigits?, Option.map_eq_some_iff, Prod.exists, Prod.mk.injEq] at h
  obtain ⟨ds, rest', hd, _, rfl⟩ := h
  exact Nat.le_of_lt (length_digits?_lt hd)

theorem length_exponent?_le {cs rest : List Char} {e : Option Int}
    (h : exponent? cs = some (e, rest)) : rest.length ≤ cs.length := by
  unfold exponent? at h
  split at h
  · next cs' =>
    unfold signedExponent? at h
    split at h <;> have := length_exponentDigits?_le h <;> simp_all <;> omega
  · next cs' =>
    unfold signedExponent? at h
    split at h <;> have := length_exponentDigits?_le h <;> simp_all <;> omega
  · simp only [Option.some.injEq, Prod.mk.injEq] at h
    exact h.2 ▸ Nat.le_refl _

theorem length_unsigned?_lt {negative : Bool} {cs rest : List Char} {literal : NumberLiteral}
    (h : unsigned? negative cs = some (literal, rest)) : rest.length < cs.length := by
  simp only [unsigned?, Option.bind_eq_bind, Option.bind_eq_some_iff, Prod.exists] at h
  obtain ⟨integer, rest₁, hi, fraction, rest₂, hf, exponent, rest₃, he, hl⟩ := h
  split at hl
  · simp at hl
  · simp only [Option.some.injEq, Prod.mk.injEq] at hl
    obtain ⟨_, rfl⟩ := hl
    have := length_digits?_lt (digits?_of_integer? hi)
    have := length_fraction?_le hf
    have := length_exponent?_le he
    omega

theorem length_number?_lt {cs rest : List Char} {literal : NumberLiteral}
    (h : number? cs = some (literal, rest)) : rest.length < cs.length := by
  unfold number? at h
  split at h
  · have := length_unsigned?_lt h
    simp only [List.length_cons]
    omega
  · exact length_unsigned?_lt h

theorem length_first?_lt {cs rest : List Char} {token : Token}
    (h : first? cs = some (token, rest)) : rest.length < cs.length := by
  unfold first? at h
  split at h
  case h_10 =>
    simp only [Option.map_eq_some_iff, Prod.exists, Prod.mk.injEq] at h
    obtain ⟨text, rest', hs, _, rfl⟩ := h
    have := length_string?_lt hs
    simp only [List.length_cons]
    omega
  case h_11 =>
    simp only [Option.map_eq_some_iff, Prod.exists, Prod.mk.injEq] at h
    obtain ⟨literal, rest', hn, _, rfl⟩ := h
    exact length_number?_lt hn
  all_goals
    simp only [Option.some.injEq, Prod.mk.injEq] at h
    obtain ⟨_, rfl⟩ := h
    simp only [List.length_cons]
    omega

/-- All tokens of a text. -/
def all? (cs : List Char) : Option (List Token) :=
  match cs with
  | [] => some []
  | c :: rest =>
    if isBlank c then all? rest
    else
      match h : first? (c :: rest) with
      | none => none
      | some (token, after) =>
        have := length_first?_lt h
        (all? after).map (token :: ·)
termination_by cs.length
decreasing_by
  · exact Nat.lt_succ_self rest.length
  · assumption

end Token

end ExiSchema.Json
