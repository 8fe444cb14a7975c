import LinkedSchema.Text.Utf8
import Mathlib.Algebra.Group.Nat.Defs

namespace LinkedSchema.Text

namespace Utf8Form

variable {n m count count' base base' : Nat}

end Utf8Form

end LinkedSchema.Text
