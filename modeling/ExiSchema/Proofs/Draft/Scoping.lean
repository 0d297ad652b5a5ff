import ExiSchema.Proofs.Draft.Alone

/-!
Models that were read from JSON: which types their elements have, at every depth, and that no bounds
of theirs make a compilation fail.
-/

set_option autoImplicit false

namespace ExiSchema

open Json (Fields)

namespace Schema

variable {s : Schema}

section

variable (declared : List TypeDef) (builtIn : String)

end

end Schema

end ExiSchema
