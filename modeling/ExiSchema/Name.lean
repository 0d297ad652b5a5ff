/-!
Qualified names: a namespace and a local name. The written form puts the namespace between braces
and leaves the braces out where there is no namespace.
-/

set_option autoImplicit false

namespace ExiSchema

/-- The empty namespace text means "no namespace". -/
structure QName where
  uri : String
  localName : String
deriving DecidableEq, Hashable, Repr, Inhabited

namespace QName

/-- The name in written form, without any check: the local name may be empty or hold braces. -/
def toText (q : QName) : String :=
  if q.uri.isEmpty then q.localName else "\x7b" ++ q.uri ++ "\x7d" ++ q.localName

/-- Reads a written name. The first closing brace ends the namespace; the local name may not be
empty, and without an opening brace the whole text is the local name. -/
def ofText? (text : String) : Option QName :=
  match text.toList with
  | [] => none
  | '{' :: rest =>
    match rest.dropWhile (· != '}') with
    | _ :: c :: cs => some ⟨String.ofList (rest.takeWhile (· != '}')), String.ofList (c :: cs)⟩
    | _ => none
  | _ => some ⟨"", text⟩

/-- Namespaces decide first, then local names; both compare by code points. -/
def compare (a b : QName) : Ordering :=
  (Ord.compare a.uri b.uri).then (Ord.compare a.localName b.localName)

/-- Local names decide first, then namespaces; both compare by code points. -/
def compareLocal (a b : QName) : Ordering :=
  (Ord.compare a.localName b.localName).then (Ord.compare a.uri b.uri)

theorem compare_eq_iff {a b : QName} : compare a b = .eq ↔ a = b := by
  cases a; cases b
  simp [compare]

theorem compareLocal_eq_iff {a b : QName} : compareLocal a b = .eq ↔ a = b := by
  cases a; cases b
  simp [compareLocal, and_comm]

end QName

end ExiSchema
