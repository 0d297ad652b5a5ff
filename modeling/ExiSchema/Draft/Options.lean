/-!
What a caller may choose about a compilation.
-/

set_option autoImplicit false

namespace ExiSchema

structure Options where
  /-- Leave out a declaration that needs an unsupported construct, with a warning. -/
  skipUnsupported : Bool := false
  /-- Take attribute uses by local name and then namespace, not as declared. -/
  sortAttributes : Bool := false
deriving DecidableEq, Repr, Inhabited

end ExiSchema
