import ExiSchema.Json.Number

/-!
JSON values. An object keeps its fields as written; of fields with one key the last counts.
-/

set_option autoImplicit false

namespace ExiSchema

inductive Json where
  | null
  | bool (value : Bool)
  | number (literal : NumberLiteral)
  | string (text : String)
  | array (items : List Json)
  | object (fields : List (String × Json))
deriving Inhabited

namespace Json

/-- The fields of an object. -/
abbrev Fields := List (String × Json)

namespace Fields

/-- The value of the last field with this key. -/
def get? (key : String) : Fields → Option Json
  | [] => none
  | (k, value) :: rest =>
    match get? key rest with
    | some later => some later
    | none => if k = key then some value else none

theorem sizeOf_get?_lt {key : String} {fields : Fields} {value : Json}
    (h : get? key fields = some value) : sizeOf value < sizeOf fields := by
  induction fields generalizing value with
  | nil => simp [get?] at h
  | cons field rest ih =>
    obtain ⟨k, v⟩ := field
    simp only [get?] at h
    split at h
    · next later hl =>
      have hlt := ih hl
      simp only [Option.some.injEq] at h
      subst h
      simp only [List.cons.sizeOf_spec]
      omega
    · split at h
      · simp only [Option.some.injEq] at h
        subst h
        simp only [List.cons.sizeOf_spec, Prod.mk.sizeOf_spec]
        omega
      · simp at h

theorem sizeOf_object_lt {key : String} {fields inner : Fields}
    (h : get? key fields = some (.object inner)) : sizeOf inner < sizeOf fields := by
  have hlt := sizeOf_get?_lt h
  simp only [object.sizeOf_spec] at hlt
  omega

theorem sizeOf_array_lt {key : String} {fields : Fields} {items : List Json}
    (h : get? key fields = some (.array items)) : sizeOf items < sizeOf fields := by
  have hlt := sizeOf_get?_lt h
  simp only [array.sizeOf_spec] at hlt
  omega

end Fields

end Json

end ExiSchema
